import Mathlib.Algebra.Order.Floor.Div
import Mathlib.Data.List.TakeWhile
import StreamSplice.Proofs.Coverage

/-! The closed form of a join. The bytes of the joined frames stand one after the other behind the
leading padding, wherever the frames were placed before, and each of them names the word and the
byte that its index within its frame leads to. -/
namespace StreamSplice

open Layout Pipeline

/-- A frame of a stream, and where to place it. -/
structure Piece where
  stream : Nat
  frame : Frame
  /-- Offset of the first byte within the first output word. -/
  outputOffset : Nat
  deriving DecidableEq

namespace Piece

variable {wordBytes : Nat} {piece : Piece}

/-- A piece that can be placed: both offsets are within a word, and the end of the frame is a
size. -/
structure Fits (wordBytes : Nat) (piece : Piece) : Prop where
  outputOffset_lt : piece.outputOffset < wordBytes
  startOffset_lt : piece.frame.startOffset < wordBytes
  end_le : piece.frame.startOffset + piece.frame.byteCount ≤ maxSize

/-- The layout of a piece on its own. -/
def layout (wordBytes : Nat) (piece : Piece) : Except LayoutError Layout :=
  place wordBytes piece.stream piece.frame.byteCount piece.outputOffset piece.frame.startOffset

/-- The bytes of a piece. -/
def origins (wordBytes : Nat) (piece : Piece) : List Origin :=
  piece.frame.origins wordBytes piece.stream

/-- A piece without bytes has no words at all, and the words of any other start with its output
offset. -/
theorem Fits.exists_layout (h : piece.Fits wordBytes) :
    ∃ layout, piece.layout wordBytes = .ok layout ∧
      (piece.frame.byteCount = 0 → layout = .empty) ∧
      (0 < piece.frame.byteCount →
        layout = ofData wordBytes piece.outputOffset (piece.origins wordBytes)) := by
  rcases Nat.eq_zero_or_pos piece.frame.byteCount with hCount | hCount
  · exact ⟨.empty, place_eq_ok.mpr ⟨h.outputOffset_lt, h.startOffset_lt, .inl ⟨hCount, rfl⟩⟩,
      fun _ => rfl, by omega⟩
  · exact ⟨_, place_eq_ok.mpr
        ⟨h.outputOffset_lt, h.startOffset_lt, .inr ⟨hCount, h.end_le, rfl⟩⟩,
      by omega, fun _ => rfl⟩

end Piece

/-- Index of the first byte of a piece among the bytes of all pieces. -/
def pieceStart (pieces : List Piece) (index : Nat) : Nat :=
  startOf (pieces.map Piece.frame) index

/-- Number of bytes of all pieces. -/
def pieceTotal (pieces : List Piece) : Nat := byteTotal (pieces.map Piece.frame)

/-- The layout of the bytes of pieces, one piece after the other from `offset` on. -/
structure ClosedForm (wordBytes offset : Nat) (pieces : List Piece) (layout : Layout) : Prop where
  length_words : layout.words.length = (offset + pieceTotal pieces) ⌈/⌉ wordBytes
  length_word : ∀ word ∈ layout.words, word.length = wordBytes
  /-- Byte `k` of a frame is the one `k` positions after the first byte of the frame. -/
  byte : ∀ i piece k, pieces[i]? = some piece → k < piece.frame.byteCount →
    layout.cells[offset + pieceStart pieces i + k]? = some (some
      { stream := piece.stream
        word := (piece.frame.startOffset + k) / wordBytes
        byte := (piece.frame.startOffset + k) % wordBytes
        inLastWord := (piece.frame.startOffset + k) / wordBytes ==
          (piece.frame.startOffset + piece.frame.byteCount - 1) / wordBytes })
  /-- There are no other bytes. -/
  padding : ∀ position < layout.cells.length,
    (∀ i piece k, pieces[i]? = some piece → k < piece.frame.byteCount →
      position ≠ offset + pieceStart pieces i + k) →
    layout.cells[position]? = some none
  endOffset : layout.endOffset? wordBytes =
    if ∃ piece ∈ pieces, 0 < piece.frame.byteCount then
      some ((offset + pieceTotal pieces) % wordBytes)
    else none

namespace Layout

variable {wordBytes offset : Nat}

/-- A layout without bytes has no end offset, with or without words of padding. -/
theorem endOffset?_of_data_eq_nil {layout : Layout} (h : layout.data = []) :
    layout.endOffset? wordBytes = none := by
  rw [endOffset?]
  cases hLast : layout.words.getLast? with
  | none => rfl
  | some last =>
      have hBlank : last.reverse.dropWhile Option.isNone = [] := by
        rw [List.dropWhile_eq_nil_iff]
        intro cell hCell
        rw [data, cells, List.filterMap_eq_nil_iff] at h
        have hNone := h cell (List.mem_flatten_of_mem (List.mem_of_getLast? hLast)
          (List.mem_reverse.mp hCell))
        rw [show cell = none from hNone]
        rfl
      simp [hBlank]

/-- Consecutive bytes are at consecutive positions, counted over all words, and nowhere else. -/
theorem getElem?_cells_ofData_eq_some (hWidth : 0 < wordBytes) {bytes : List Origin}
    {position : Nat} {origin : Origin} :
    (ofData wordBytes offset bytes).cells[position]? = some (some origin) ↔
      ∃ index, position = offset + index ∧ bytes[index]? = some origin := by
  rw [ofData, cells_ofCells hWidth, List.rightpad]
  constructor
  · intro h
    rw [List.getElem?_append, List.getElem?_append] at h
    split at h
    · split at h
      · simp [List.getElem?_replicate] at h
      · next hBefore =>
          rw [List.length_replicate] at h hBefore
          simp only [List.getElem?_map, Option.map_eq_some_iff, Option.some.injEq,
            exists_eq_right] at h
          exact ⟨position - offset, by omega, h⟩
    · simp [List.getElem?_replicate] at h
  · rintro ⟨index, rfl, h⟩
    have hBound := (List.getElem?_eq_some_iff.mp h).1
    rw [List.getElem?_append_left (by simp; omega), List.getElem?_append_right (by simp),
      List.length_replicate, Nat.add_sub_cancel_left, List.getElem?_map, h, Option.map_some]

end Layout

section Pieces

variable {wordBytes offset : Nat} {pieces : List Piece}

theorem length_flatMap_origins (wordBytes : Nat) (pieces : List Piece) :
    (pieces.flatMap (Piece.origins wordBytes)).length = pieceTotal pieces := by
  induction pieces with
  | nil => rfl
  | cons piece rest ih =>
      rw [List.flatMap_cons, List.length_append, ih, Piece.origins, Frame.length_origins]
      rfl

/-- The byte at an index of the bytes of all pieces, by the piece that it belongs to. -/
theorem getElem?_flatMap_origins {index : Nat} {origin : Origin} :
    (pieces.flatMap (Piece.origins wordBytes))[index]? = some origin ↔
      ∃ i piece k, pieces[i]? = some piece ∧ k < piece.frame.byteCount ∧
        index = pieceStart pieces i + k ∧
        origin = originAt wordBytes piece.stream (piece.frame.lastWord wordBytes)
          (piece.frame.startOffset + k) := by
  have hStart : ∀ i, ((pieces.take i).flatMap (Piece.origins wordBytes)).length =
      pieceStart pieces i := by
    intro i
    rw [length_flatMap_origins, pieceTotal, pieceStart, startOf, List.map_take]
  rw [getElem?_flatMap_eq_some]
  simp only [hStart, Piece.origins, Frame.getElem?_origins]
  refine exists_congr fun i => exists_congr fun piece => exists_congr fun k =>
    and_congr_right fun _ => ?_
  split
  · next hInside => simp [hInside, eq_comm, and_comm]
  · next hOutside => simp [hOutside]

theorem pieceTotal_pos_iff :
    0 < pieceTotal pieces ↔ ∃ piece ∈ pieces, 0 < piece.frame.byteCount := by
  induction pieces with
  | nil => simp [pieceTotal, byteTotal]
  | cons piece rest ih =>
      rw [List.exists_mem_cons_iff, ← ih]
      simp only [pieceTotal, List.map_cons, byteTotal]
      omega

/-- Pieces that are laid out one after the other have the closed form. -/
theorem closedForm_ofData (hOffset : offset < wordBytes) (pieces : List Piece) :
    ClosedForm wordBytes offset pieces
      (ofData wordBytes offset (pieces.flatMap (Piece.origins wordBytes))) where
  length_words := by
    rw [length_words_ofData, length_flatMap_origins, wordsSpanned, Nat.ceilDiv_eq_add_pred_div]
  length_word := fun _ hWord => length_of_mem_cut hWord
  byte := by
    intro i piece k hPiece hByte
    rw [getElem?_cells_ofData_eq_some (by omega)]
    exact ⟨pieceStart pieces i + k, Nat.add_assoc ..,
      getElem?_flatMap_origins.mpr ⟨i, piece, k, hPiece, hByte, rfl, rfl⟩⟩
  padding := by
    intro position hPosition hOther
    have hCell := List.getElem?_eq_getElem hPosition
    rw [hCell, Option.some.injEq]
    cases hByte : (ofData wordBytes offset
        (pieces.flatMap (Piece.origins wordBytes))).cells[position] with
    | none => rfl
    | some origin =>
        rw [hByte] at hCell
        obtain ⟨index, rfl, hOrigin⟩ := (getElem?_cells_ofData_eq_some (by omega)).mp hCell
        obtain ⟨i, piece, k, hPiece, hInside, rfl, _⟩ := getElem?_flatMap_origins.mp hOrigin
        exact absurd (Nat.add_assoc ..).symm (hOther i piece k hPiece hInside)
  endOffset := by
    rw [← length_flatMap_origins wordBytes]
    split
    · next hSome =>
        have hBytes := pieceTotal_pos_iff.mpr hSome
        rw [← length_flatMap_origins wordBytes] at hBytes
        exact endOffset?_ofData hOffset (List.ne_nil_of_length_pos hBytes)
    · next hNone =>
        have hBytes := pieceTotal_pos_iff.not.mpr hNone
        rw [← length_flatMap_origins wordBytes, List.length_pos_iff, not_not] at hBytes
        exact endOffset?_of_data_eq_nil ((data_ofData (by omega) _).trans hBytes)

/-- There is one layout in the closed form. -/
theorem ClosedForm.eq {layout other : Layout} (h : ClosedForm wordBytes offset pieces layout)
    (hOther : ClosedForm wordBytes offset pieces other) : layout = other := by
  have hWidths : ∀ {layout}, ClosedForm wordBytes offset pieces layout →
      layout.words.map List.length =
        List.replicate ((offset + pieceTotal pieces) ⌈/⌉ wordBytes) wordBytes := by
    intro layout h
    rw [← h.length_words, List.map_eq_replicate_iff]
    exact h.length_word
  have hLength : layout.cells.length = other.cells.length := by
    rw [cells, cells, List.length_flatten, List.length_flatten, hWidths h, hWidths hOther]
  -- Every position holds a byte of a piece or padding, and the form says which.
  have hCells : layout.cells = other.cells := by
    refine List.ext_getElem? fun position => ?_
    by_cases hInside : position < layout.cells.length
    · by_cases hByte : ∃ i piece k, pieces[i]? = some piece ∧ k < piece.frame.byteCount ∧
          position = offset + pieceStart pieces i + k
      · obtain ⟨i, piece, k, hPiece, hk, rfl⟩ := hByte
        rw [h.byte i piece k hPiece hk, hOther.byte i piece k hPiece hk]
      · have hNone : ∀ i piece k, pieces[i]? = some piece → k < piece.frame.byteCount →
            position ≠ offset + pieceStart pieces i + k :=
          fun i piece k hPiece hk hPosition => hByte ⟨i, piece, k, hPiece, hk, hPosition⟩
        rw [h.padding position hInside hNone, hOther.padding position (hLength ▸ hInside) hNone]
    · rw [List.getElem?_eq_none (by omega), List.getElem?_eq_none (by omega)]
  have hWords : layout.words = other.words :=
    List.eq_iff_flatten_eq.mpr ⟨hCells, by rw [hWidths h, hWidths hOther]⟩
  exact congrArg Layout.mk hWords

theorem flatMap_data_of_mapM {parts : List Layout}
    (h : pieces.mapM (Piece.layout wordBytes) = .ok parts) :
    parts.flatMap data = pieces.flatMap (Piece.origins wordBytes) := by
  rw [mapM_eq_ok_iff] at h
  exact (flatMap_eq_of_forall₂ h fun _ _ hPlace => (data_of_place hPlace).symm).symm

/-- Pieces that can be placed have a join, and it is the layout in the closed form. Where the
pieces were placed before does not matter to it. The layout of a single piece has the closed form
too, from the output offset of the piece on, unless there are no bytes. -/
theorem splice_closedForm (hOffset : offset < wordBytes)
    (hFits : ∀ piece ∈ pieces, piece.Fits wordBytes) :
    (∃ parts joined, pieces.mapM (Piece.layout wordBytes) = .ok parts ∧
      splice wordBytes parts offset = .ok joined ∧
      ∀ layout, ClosedForm wordBytes offset pieces layout ↔ layout = joined) ∧
    ∀ piece : Piece, piece.Fits wordBytes → ∃ layout,
      piece.layout wordBytes = .ok layout ∧
      (piece.frame.byteCount = 0 → layout = .empty) ∧
      (0 < piece.frame.byteCount →
        ClosedForm wordBytes piece.outputOffset [piece] layout) := by
  constructor
  · obtain ⟨parts, hParts⟩ : ∃ parts, pieces.mapM (Piece.layout wordBytes) = .ok parts :=
      exists_mapM_eq_ok fun piece hMem => by
        obtain ⟨layout, hLayout, _⟩ := (hFits piece hMem).exists_layout
        exact ⟨layout, hLayout⟩
    have hForm := closedForm_ofData hOffset pieces
    rw [← flatMap_data_of_mapM hParts] at hForm
    refine ⟨parts, _, hParts, splice_of_lt hOffset parts, fun layout => ⟨?_, ?_⟩⟩
    · intro h
      exact h.eq hForm
    · rintro rfl
      exact hForm
  · intro piece hPiece
    obtain ⟨layout, hLayout, hEmpty, hBytes⟩ := hPiece.exists_layout
    refine ⟨layout, hLayout, hEmpty, fun hCount => ?_⟩
    rw [hBytes hCount]
    simpa using closedForm_ofData hPiece.outputOffset_lt [piece]

/-- Three bytes of a stream, none of a second one, and two of a third one. -/
def threeNoneTwo : List Piece := [⟨0, ⟨3, 1⟩, 0⟩, ⟨1, ⟨0, 0⟩, 1⟩, ⟨2, ⟨2, 1⟩, 1⟩]

theorem splice_closedForm_threeNoneTwo :
    ∃ parts joined, threeNoneTwo.mapM (Piece.layout 2) = .ok parts ∧
      splice 2 parts 1 = .ok joined ∧ joined.words.length = 3 ∧
      joined.cells[0]? = some none ∧ joined.cells[4]? = some (some ⟨2, 0, 1, false⟩) ∧
      joined.endOffset? 2 = some 0 := by
  have hFits : ∀ piece ∈ threeNoneTwo, piece.Fits 2 := by
    intro piece hMem
    simp only [threeNoneTwo, List.mem_cons, List.not_mem_nil, or_false] at hMem
    rcases hMem with rfl | rfl | rfl <;> exact ⟨by decide, by decide, by simp [maxSize]⟩
  obtain ⟨⟨parts, joined, hParts, hJoined, hForm⟩, _⟩ :=
    splice_closedForm (by decide : 1 < 2) hFits
  have hForm := (hForm joined).mpr rfl
  have hLength : joined.words.length = 3 := hForm.length_words
  refine ⟨parts, joined, hParts, hJoined, hLength, hForm.padding 0 ?_ ?_, ?_, hForm.endOffset⟩
  · rw [cells, List.length_flatten, List.map_congr_left hForm.length_word, List.map_const', hLength]
    decide
  · intro i piece k _ _
    omega
  · exact hForm.byte 2 ⟨2, ⟨2, 1⟩, 1⟩ 0 rfl (by decide)

end Pieces

end StreamSplice
