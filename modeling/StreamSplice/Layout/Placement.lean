import StreamSplice.Layout.Basic
import StreamSplice.Layout.Error
import StreamSplice.Limit

/-! Placement of bytes into output words: the bytes of a single frame, and the
frames of several streams one after the other. -/
namespace StreamSplice.Layout

/-- Number of words spanned by `count` consecutive bytes from the start of a word. -/
def wordsSpanned (wordBytes count : Nat) : Nat := (count + wordBytes - 1) / wordBytes

/-- The first `count` words of consecutive cells, filled up with padding. -/
def cut (wordBytes : Nat) : (count : Nat) → List Cell → List (List Cell)
  | 0, _ => []
  | count + 1, cells =>
      (cells.take wordBytes).rightpad wordBytes none :: cut wordBytes count (cells.drop wordBytes)

/-- Cut consecutive cells into words, padding the final word. -/
def ofCells (wordBytes : Nat) (cells : List Cell) : Layout where
  words := cut wordBytes (wordsSpanned wordBytes cells.length) cells

/-- Every word is filled up to its width. -/
theorem length_of_mem_cut {wordBytes count : Nat} {cells word : List Cell}
    (h : word ∈ cut wordBytes count cells) : word.length = wordBytes := by
  induction count generalizing cells with
  | zero => cases h
  | succ count ih =>
      rcases List.mem_cons.mp h with rfl | h
      · rw [List.length_rightpad, List.length_take]
        omega
      · exact ih h

theorem wordsSpanned_zero {wordBytes : Nat} (h : 0 < wordBytes) : wordsSpanned wordBytes 0 = 0 :=
  Nat.div_eq_of_lt (by omega)

theorem wordsSpanned_of_pos {wordBytes count : Nat} (h : 0 < wordBytes) (hCount : 0 < count) :
    wordsSpanned wordBytes count = wordsSpanned wordBytes (count - wordBytes) + 1 := by
  unfold wordsSpanned
  rcases Nat.le_total count wordBytes with hLe | hLe
  · rw [Nat.sub_eq_zero_of_le hLe, Nat.div_eq_of_lt_le (k := 1) (by omega) (by omega),
      Nat.div_eq_of_lt (by omega)]
  · rw [show count + wordBytes - 1 = (count - wordBytes + wordBytes - 1) + wordBytes by omega,
      Nat.add_div_right _ h]

theorem words_ofCells_nil {wordBytes : Nat} (h : 0 < wordBytes) :
    (ofCells wordBytes []).words = [] := by
  simp [ofCells, wordsSpanned_zero h, cut]

/-- The first word takes the first cells, and the others are cut from the rest. -/
theorem words_ofCells {wordBytes : Nat} (h : 0 < wordBytes) {cells : List Cell}
    (hCells : cells ≠ []) :
    (ofCells wordBytes cells).words =
      (cells.take wordBytes).rightpad wordBytes none ::
        (ofCells wordBytes (cells.drop wordBytes)).words := by
  simp only [ofCells, wordsSpanned_of_pos h (List.length_pos_iff.mpr hCells), cut,
    List.length_drop]

/-- Cutting cells into words adds padding up to the end of the last word. -/
theorem cells_ofCells {wordBytes : Nat} (h : 0 < wordBytes) (cells : List Cell) :
    (ofCells wordBytes cells).cells =
      cells.rightpad (wordsSpanned wordBytes cells.length * wordBytes) none := by
  induction hLength : cells.length using Nat.strongRecOn generalizing cells with
  | ind length ih =>
      rcases Decidable.em (cells = []) with hCells | hCells
      · subst hCells
        simp [← hLength, wordsSpanned_zero h, Layout.cells, words_ofCells_nil h]
      · have hPositive := List.length_pos_iff.mpr hCells
        have hRest := ih (cells.drop wordBytes).length (by simp; omega) _ rfl
        rw [Layout.cells] at hRest ⊢
        rw [words_ofCells h hCells, List.flatten_cons, hRest, List.length_drop, ← hLength,
          wordsSpanned_of_pos h hPositive, Nat.succ_mul]
        simp only [List.rightpad, List.length_take, List.length_drop]
        rcases Nat.le_total cells.length wordBytes with hFew | hMany
        · rw [List.take_of_length_le hFew, List.drop_of_length_le hFew, Nat.min_eq_right hFew,
            Nat.sub_eq_zero_of_le hFew, wordsSpanned_zero h]
          simp
        · rw [Nat.min_eq_left hMany, Nat.sub_self, List.replicate_zero, List.append_nil,
            ← List.append_assoc, List.take_append_drop]
          congr 2
          omega

/-- Cutting cells into words keeps their bytes. -/
theorem data_ofCells {wordBytes : Nat} (h : 0 < wordBytes) (cells : List Cell) :
    (ofCells wordBytes cells).data = cells.filterMap id := by
  rw [data, cells_ofCells h, List.rightpad, List.filterMap_append, List.filterMap_replicate]
  simp

/-- The input byte at position `position` of the words of a frame whose last byte
lies in word `lastWord`. -/
def originAt (wordBytes stream lastWord position : Nat) : Origin where
  stream := stream
  word := position / wordBytes
  byte := position % wordBytes
  inLastWord := position / wordBytes == lastWord

/-- Lay out `count` consecutive bytes of a stream. They are taken from
`inputOffset` within the first input word on, and placed from `outputOffset`
within the first output word on. A frame without bytes has no words at all. -/
def place (wordBytes stream count outputOffset inputOffset : Nat) :
    Except LayoutError Layout := do
  requireInWord outputOffset wordBytes
  requireInWord inputOffset wordBytes
  if count = 0 then
    return .empty
  if maxSize < inputOffset + count then
    throw (.sizeOverflow 1 count)
  let lastWord := (inputOffset + count - 1) / wordBytes
  let bytes := (List.range' inputOffset count).map (originAt wordBytes stream lastWord)
  return .ofCells wordBytes (List.replicate outputOffset none ++ bytes.map some)

/-- Join layouts into one continuous layout. Their padding is dropped, and the
remaining bytes are cut into words again, the first word starting at `offset`. -/
def splice (wordBytes : Nat) (parts : List Layout) (offset : Nat) :
    Except LayoutError Layout := do
  requireInWord offset wordBytes
  return .ofCells wordBytes
    (List.replicate offset none ++ (parts.flatMap data).map some)

/-- A layout that is joined keeps all its bytes and their order. -/
theorem data_splice {wordBytes offset : Nat} {parts : List Layout} {joined : Layout}
    (h : splice wordBytes parts offset = .ok joined) : joined.data = parts.flatMap data := by
  by_cases hOffset : offset < wordBytes
  · simp only [splice, requireInWord, hOffset, if_true] at h
    cases h
    rw [data_ofCells (by omega), List.filterMap_append, List.filterMap_replicate]
    simp
  · simp only [splice, requireInWord, hOffset, if_false] at h
    cases h

end StreamSplice.Layout
