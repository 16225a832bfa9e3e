import StreamSplice.Layout.Placement

/-! Filling words cell by cell. A cell goes into the last word as long as that has room, and into
a new word otherwise; in the end the last word is filled up with padding. -/
namespace StreamSplice.Layout

/-- Put a cell into the last word, or into a new one if the last word is full. -/
def pushCell (wordBytes : Nat) (words : List (List Cell)) (cell : Cell) : List (List Cell) :=
  match words.getLast? with
  | some word =>
      if word.length < wordBytes then words.dropLast ++ [word ++ [cell]] else words ++ [[cell]]
  | none => [[cell]]

/-- Bring the last word to its width. -/
def padLast (wordBytes : Nat) (words : List (List Cell)) : List (List Cell) :=
  match words.getLast? with
  | some word => words.dropLast ++ [(word.take wordBytes).rightpad wordBytes none]
  | none => []

/-- The words that are filled with cells, one after the other. -/
def fill (wordBytes : Nat) (cells : List Cell) : List (List Cell) :=
  padLast wordBytes (cells.foldl (pushCell wordBytes) [])

variable {wordBytes : Nat} {words : List (List Cell)} {word cells : List Cell}

/-- The words before the last one are left alone. -/
theorem pushCell_cons (word : List Cell) (cell : Cell) (hWords : words ≠ []) :
    pushCell wordBytes (word :: words) cell = word :: pushCell wordBytes words cell := by
  obtain ⟨last, hLast⟩ := List.getLast?_isSome.mpr hWords |> Option.isSome_iff_exists.mp
  rw [pushCell, pushCell, List.getLast?_cons, hLast, Option.getD_some,
    List.dropLast_cons_of_ne_nil hWords]
  simp only [List.cons_append]
  split <;> rfl

theorem pushCell_ne_nil (words : List (List Cell)) (cell : Cell) :
    pushCell wordBytes words cell ≠ [] := by
  rw [pushCell]
  split
  · split <;> simp
  · simp

theorem foldl_pushCell_ne_nil (hWords : words ≠ []) (cells : List Cell) :
    cells.foldl (pushCell wordBytes) words ≠ [] := by
  induction cells generalizing words with
  | nil => exact hWords
  | cons cell cells ih => exact ih (pushCell_ne_nil words cell)

theorem foldl_pushCell_cons (word : List Cell) (hWords : words ≠ []) (cells : List Cell) :
    cells.foldl (pushCell wordBytes) (word :: words) =
      word :: cells.foldl (pushCell wordBytes) words := by
  induction cells generalizing words with
  | nil => rfl
  | cons cell cells ih =>
      rw [List.foldl_cons, List.foldl_cons, pushCell_cons word cell hWords,
        ih (pushCell_ne_nil words cell)]

/-- A word takes all cells that it has room for. -/
theorem foldl_pushCell_of_le (h : word.length + cells.length ≤ wordBytes) :
    cells.foldl (pushCell wordBytes) [word] = [word ++ cells] := by
  induction cells generalizing word with
  | nil => simp
  | cons cell cells ih =>
      rw [List.length_cons] at h
      have hPush : pushCell wordBytes [word] cell = [word ++ [cell]] := by
        simp [pushCell, show word.length < wordBytes by omega]
      rw [List.foldl_cons, hPush, ih (by simp; omega), List.append_assoc, List.singleton_append]

/-- A full word takes no more cells. -/
theorem foldl_pushCell_of_full (h : wordBytes ≤ word.length) (cells : List Cell) :
    cells.foldl (pushCell wordBytes) [word] = word :: cells.foldl (pushCell wordBytes) [] := by
  cases cells with
  | nil => rfl
  | cons cell cells =>
      have hPush : pushCell wordBytes [word] cell = word :: pushCell wordBytes [] cell := by
        simp [pushCell, Nat.not_lt.mpr h]
      rw [List.foldl_cons, hPush, foldl_pushCell_cons word (pushCell_ne_nil [] cell),
        List.foldl_cons]

theorem padLast_cons (word : List Cell) (hWords : words ≠ []) :
    padLast wordBytes (word :: words) = word :: padLast wordBytes words := by
  obtain ⟨last, hLast⟩ := List.getLast?_isSome.mpr hWords |> Option.isSome_iff_exists.mp
  rw [padLast, padLast, List.getLast?_cons, hLast, Option.getD_some,
    List.dropLast_cons_of_ne_nil hWords]
  rfl

/-- The first word is filled with the first cells, and the others with the rest. -/
theorem fill_eq_cons (hWidth : 0 < wordBytes) (hCells : cells ≠ []) :
    fill wordBytes cells =
      (cells.take wordBytes).rightpad wordBytes none :: fill wordBytes (cells.drop wordBytes) := by
  have hFirst : (cells.take wordBytes).foldl (pushCell wordBytes) [] = [cells.take wordBytes] := by
    obtain ⟨cell, rest, rfl⟩ := List.exists_cons_of_ne_nil hCells
    obtain ⟨room, rfl⟩ : ∃ room, wordBytes = room + 1 := ⟨wordBytes - 1, by omega⟩
    rw [List.take_succ_cons, List.foldl_cons]
    exact foldl_pushCell_of_le (by simp; omega)
  conv => lhs; rw [fill, ← List.take_append_drop wordBytes cells, List.foldl_append, hFirst]
  -- The first word is padded if it is the last one, and is left alone otherwise.
  by_cases hRest : cells.drop wordBytes = []
  · simp [hRest, padLast, fill, List.take_take]
  · have hLength : (cells.take wordBytes).length = wordBytes := by
      have hMore := List.length_pos_iff.mpr hRest
      rw [List.length_drop] at hMore
      rw [List.length_take]
      omega
    have hWords : (cells.drop wordBytes).foldl (pushCell wordBytes) [] ≠ [] := by
      obtain ⟨cell, rest, hCons⟩ := List.exists_cons_of_ne_nil hRest
      rw [hCons, List.foldl_cons]
      exact foldl_pushCell_ne_nil (pushCell_ne_nil [] cell) rest
    rw [foldl_pushCell_of_full (Nat.le_of_eq hLength.symm), padLast_cons _ hWords, fill,
      List.rightpad, hLength, Nat.sub_self, List.replicate_zero, List.append_nil]

/-- Filling words cell by cell cuts the cells into words. -/
theorem words_ofCells_eq_fill (hWidth : 0 < wordBytes) (cells : List Cell) :
    (ofCells wordBytes cells).words = fill wordBytes cells := by
  induction hLength : cells.length using Nat.strongRecOn generalizing cells with
  | ind length ih =>
      by_cases hCells : cells = []
      · rw [hCells, words_ofCells_nil hWidth]
        rfl
      · have hPositive := List.length_pos_iff.mpr hCells
        rw [words_ofCells hWidth hCells, fill_eq_cons hWidth hCells,
          ih (cells.drop wordBytes).length (by rw [List.length_drop]; omega) _ rfl]

end StreamSplice.Layout
