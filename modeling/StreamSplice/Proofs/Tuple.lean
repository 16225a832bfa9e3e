import Mathlib.Data.List.Forall2
import StreamSplice.Pipeline
import StreamSplice.Proofs.Fallible
import StreamSplice.Proofs.LayoutContext

/-! Tuples of frames, one frame per stream, and the bytes of their joined layout. The bytes
of a tuple are those of its frames, one frame after the other. -/
namespace StreamSplice

open Layout

/-- An item of lists one after the other, by the list that it belongs to. -/
theorem getElem?_flatMap_eq_some {α β : Type} {f : α → List β} {sources : List α} {index : Nat}
    {item : β} :
    (sources.flatMap f)[index]? = some item ↔
      ∃ i source k, sources[i]? = some source ∧ (f source)[k]? = some item ∧
        index = ((sources.take i).flatMap f).length + k := by
  induction sources generalizing index with
  | nil => simp
  | cons head rest ih =>
      have hLater : ∀ i, (((head :: rest).take (i + 1)).flatMap f).length =
          (f head).length + ((rest.take i).flatMap f).length := fun i => by
        rw [List.take_succ_cons, List.flatMap_cons, List.length_append]
      rw [List.flatMap_cons, List.getElem?_append]
      split
      · next hHead =>
          constructor
          · intro hItem
            exact ⟨0, head, index, rfl, hItem, by simp⟩
          · rintro ⟨i, source, k, hSource, hItem, hIndex⟩
            cases i with
            | zero =>
                cases hSource
                simpa [hIndex] using hItem
            | succ i =>
                rw [hLater] at hIndex
                omega
      · next hTail =>
          rw [ih]
          constructor
          · rintro ⟨i, source, k, hSource, hItem, hIndex⟩
            exact ⟨i + 1, source, k, hSource, hItem, by rw [hLater]; omega⟩
          · rintro ⟨i, source, k, hSource, hItem, hIndex⟩
            cases i with
            | zero =>
                cases hSource
                have hBound := (List.getElem?_eq_some_iff.mp hItem).1
                simp only [List.take_zero, List.flatMap_nil, List.length_nil] at hIndex
                omega
            | succ i =>
                rw [hLater] at hIndex
                exact ⟨i, source, k, hSource, hItem, by omega⟩

namespace Pipeline

namespace Frame

/-- Index of the word that holds the last byte of a frame. -/
def lastWord (frame : Frame) (wordBytes : Nat) : Nat :=
  (frame.startOffset + frame.byteCount - 1) / wordBytes

/-- The bytes of a frame of stream `stream`. -/
def origins (frame : Frame) (wordBytes stream : Nat) : List Origin :=
  (List.range' frame.startOffset frame.byteCount).map
    (originAt wordBytes stream (frame.lastWord wordBytes))

theorem length_origins (frame : Frame) (wordBytes stream : Nat) :
    (frame.origins wordBytes stream).length = frame.byteCount := by
  simp [origins]

theorem getElem?_origins (frame : Frame) (wordBytes stream index : Nat) :
    (frame.origins wordBytes stream)[index]? =
      if index < frame.byteCount then
        some (originAt wordBytes stream (frame.lastWord wordBytes) (frame.startOffset + index))
      else none := by
  rw [origins, List.getElem?_map]
  split
  · next h => rw [List.getElem?_range' h, Option.map_some, Nat.one_mul]
  · next h => rw [List.getElem?_eq_none (by simpa using h), Option.map_none]

theorem ordered_origins (frame : Frame) (wordBytes stream : Nat) :
    (frame.origins wordBytes stream).Pairwise Origin.Before := by
  rw [origins, List.pairwise_map]
  refine (List.pairwise_lt_range' ..).imp fun {a b} hLt => .inr ⟨rfl, ?_⟩
  exact Nat.div_le_div_right (Nat.le_of_lt hLt)

end Frame

/-- The bytes of frames of the streams from `stream` on. -/
def tupleOrigins (wordBytes : Nat) : (stream : Nat) → List Frame → List Origin
  | _, [] => []
  | stream, frame :: rest =>
      frame.origins wordBytes stream ++ tupleOrigins wordBytes (stream + 1) rest

/-- Number of bytes in a tuple of frames. -/
def byteTotal : List Frame → Nat
  | [] => 0
  | frame :: rest => frame.byteCount + byteTotal rest

/-- Index of the first byte of the frame of stream `stream` in its tuple. -/
def startOf (frames : List Frame) (stream : Nat) : Nat := byteTotal (frames.take stream)

/-- The joined layout of a tuple of frames. -/
def tupleLayout (wordBytes offset : Nat) (frames : List Frame) : Layout :=
  ofData wordBytes offset (tupleOrigins wordBytes 0 frames)

/-- The cells of a word of a tuple. -/
abbrev tupleWord (wordBytes offset : Nat) (frames : List Frame) (word : Nat) : List Cell :=
  dataWord wordBytes offset (tupleOrigins wordBytes 0 frames) word

/-- The context of a word of a tuple, given its first byte. -/
abbrev tupleContext (wordBytes offset : Nat) (frames : List Frame) (word : Nat) (first : Origin) :
    Context :=
  dataContext wordBytes offset (tupleOrigins wordBytes 0 frames) word first

section Indices

variable {wordBytes stream index : Nat} {frames : List Frame} {frame : Frame} {origin : Origin}

@[simp]
theorem byteTotal_append (frames rest : List Frame) :
    byteTotal (frames ++ rest) = byteTotal frames + byteTotal rest := by
  induction frames with
  | nil => simp [byteTotal]
  | cons frame frames ih => rw [List.cons_append, byteTotal, byteTotal, ih, Nat.add_assoc]

@[simp]
theorem startOf_zero (frames : List Frame) : startOf frames 0 = 0 := rfl

@[simp]
theorem startOf_cons_succ (frame : Frame) (frames : List Frame) (stream : Nat) :
    startOf (frame :: frames) (stream + 1) = frame.byteCount + startOf frames stream := by
  simp [startOf, byteTotal]

theorem length_tupleOrigins (wordBytes stream : Nat) (frames : List Frame) :
    (tupleOrigins wordBytes stream frames).length = byteTotal frames := by
  induction frames generalizing stream with
  | nil => rfl
  | cons frame rest ih =>
      rw [tupleOrigins, List.length_append, frame.length_origins, ih]
      simp [byteTotal]

theorem tupleOrigins_eq_flatMap (wordBytes stream : Nat) (frames : List Frame) :
    tupleOrigins wordBytes stream frames =
      (frames.zipIdx stream).flatMap fun (frame, stream) => frame.origins wordBytes stream := by
  induction frames generalizing stream with
  | nil => rfl
  | cons frame rest ih => rw [tupleOrigins, ih, List.zipIdx_cons, List.flatMap_cons]

theorem startOf_length (frames : List Frame) : startOf frames frames.length = byteTotal frames := by
  rw [startOf, List.take_length]

theorem startOf_succ (h : frames[stream]? = some frame) :
    startOf frames (stream + 1) = startOf frames stream + frame.byteCount := by
  rw [startOf, List.take_add_one, h, startOf]
  simp [byteTotal]

theorem startOf_le_of_le {other : Nat} (h : stream ≤ other) :
    startOf frames stream ≤ startOf frames other := by
  induction frames generalizing stream other with
  | nil => simp [startOf, byteTotal]
  | cons frame rest ih =>
      cases stream with
      | zero => simp
      | succ stream =>
          obtain ⟨other, rfl⟩ : ∃ o, other = o + 1 := ⟨other - 1, by omega⟩
          simpa using ih (by omega)

/-- A frame ends before the frames of later streams start. -/
theorem startOf_add_le {other : Nat} (h : frames[stream]? = some frame) (hLt : stream < other) :
    startOf frames stream + frame.byteCount ≤ startOf frames other := by
  rw [← startOf_succ h]
  exact startOf_le_of_le hLt

theorem startOf_le_byteTotal (frames : List Frame) (stream : Nat) :
    startOf frames stream ≤ byteTotal frames := by
  rcases Nat.le_total stream frames.length with h | h
  · rw [← startOf_length]
    exact startOf_le_of_le h
  · exact Nat.le_of_eq (by rw [startOf, List.take_of_length_le h])

/-- The frames of a tuple without bytes are all empty. -/
theorem byteCount_eq_zero (h : frames[stream]? = some frame) (hBytes : byteTotal frames = 0) :
    frame.byteCount = 0 := by
  have hEnd := startOf_le_byteTotal frames (stream + 1)
  rw [startOf_succ h] at hEnd
  omega

/-- The byte at an index of a tuple, by the frame that it belongs to. -/
theorem getElem?_tupleOrigins :
    (tupleOrigins wordBytes stream frames)[index]? = some origin ↔
      ∃ i frame, frames[i]? = some frame ∧ startOf frames i ≤ index ∧
        index < startOf frames i + frame.byteCount ∧
        origin = originAt wordBytes (stream + i) (frame.lastWord wordBytes)
          (frame.startOffset + (index - startOf frames i)) := by
  have hStart : ∀ i, (((frames.zipIdx stream).take i).flatMap fun (frame, stream) =>
      frame.origins wordBytes stream).length = startOf frames i := by
    intro i
    have hTake : (frames.zipIdx stream).take i = (frames.take i).zipIdx stream := by
      refine List.ext_getElem? fun j => ?_
      rw [List.getElem?_take, List.getElem?_zipIdx, List.getElem?_zipIdx, List.getElem?_take]
      split <;> rfl
    rw [hTake, ← tupleOrigins_eq_flatMap, length_tupleOrigins, startOf]
  rw [tupleOrigins_eq_flatMap, getElem?_flatMap_eq_some]
  simp only [hStart, Frame.getElem?_origins]
  constructor
  · rintro ⟨i, ⟨frame, _⟩, k, hFrame, hItem, rfl⟩
    rw [List.getElem?_zipIdx, Option.map_eq_some_iff] at hFrame
    obtain ⟨_, hFrame, hPair⟩ := hFrame
    cases hPair
    dsimp only at hItem
    split at hItem
    · cases hItem
      exact ⟨i, frame, hFrame, by omega, by omega, by rw [Nat.add_sub_cancel_left]⟩
    · cases hItem
  · rintro ⟨i, frame, hFrame, hLow, hHigh, rfl⟩
    have hItem : index - startOf frames i < frame.byteCount := by omega
    refine ⟨i, (frame, stream + i), index - startOf frames i, ?_, if_pos hItem, by omega⟩
    rw [List.getElem?_zipIdx, hFrame, Option.map_some]

theorem le_stream_of_mem (h : origin ∈ tupleOrigins wordBytes stream frames) :
    stream ≤ origin.stream := by
  obtain ⟨index, hIndex⟩ := List.mem_iff_getElem?.mp h
  obtain ⟨i, frame, _, _, _, rfl⟩ := getElem?_tupleOrigins.mp hIndex
  exact Nat.le_add_right _ _

/-- The bytes of a tuple are laid out by stream and then by input word. -/
theorem ordered_tupleOrigins (wordBytes stream : Nat) (frames : List Frame) :
    (tupleOrigins wordBytes stream frames).Pairwise Origin.Before := by
  induction frames generalizing stream with
  | nil => exact .nil
  | cons frame rest ih =>
      rw [tupleOrigins, List.pairwise_append]
      refine ⟨frame.ordered_origins wordBytes stream, ih (stream + 1), fun a ha b hb => .inl ?_⟩
      obtain ⟨_, _, rfl⟩ := List.mem_map.mp ha
      exact le_stream_of_mem hb

/-- A context occurs in a tuple if it is the context of a word that has a first byte. -/
theorem hasContext_tupleLayout_iff {offset : Nat} (hOffset : offset < wordBytes)
    {context : Context} :
    (tupleLayout wordBytes offset frames).HasContext context ↔
      ∃ word first, (tupleOrigins wordBytes 0 frames)[wordStart wordBytes offset word]? =
          some first ∧
        tupleContext wordBytes offset frames word first = context := by
  apply exists_congr
  intro word
  rw [tupleLayout, contextAt?_ofData hOffset (ordered_tupleOrigins wordBytes 0 frames),
    Option.map_eq_some_iff]

/-- A position is in the word that holds its byte. -/
theorem div_mod_of_lt {row byte : Nat} (h : byte < wordBytes) :
    (row * wordBytes + byte) / wordBytes = row ∧ (row * wordBytes + byte) % wordBytes = byte := by
  rw [Nat.mul_comm, Nat.mul_add_div (by omega), Nat.div_eq_of_lt h, Nat.mul_add_mod,
    Nat.mod_eq_of_lt h]
  exact ⟨rfl, rfl⟩

/-- Successive bytes of a tuple are adjacent in an input word exactly if they look so. -/
theorem precedes_of_successive (hWidth : 0 < wordBytes) {a b : Origin}
    (ha : (tupleOrigins wordBytes stream frames)[index]? = some a)
    (hb : (tupleOrigins wordBytes stream frames)[index + 1]? = some b) :
    a.precedes b =
      (a.byte ≠ wordBytes - 1 && b.stream == a.stream && b.byte == a.byte + 1) := by
  obtain ⟨i, frame, hFrame, hStart, hEnd, rfl⟩ := getElem?_tupleOrigins.mp ha
  obtain ⟨j, other, hOther, hStart', hEnd', rfl⟩ := getElem?_tupleOrigins.mp hb
  by_cases hStream : i = j
  · subst hStream
    cases hFrame.symm.trans hOther
    obtain ⟨row, byte, hByte, hPosition⟩ : ∃ row byte, byte < wordBytes ∧
        frame.startOffset + (index - startOf frames i) = row * wordBytes + byte :=
      ⟨_, _, Nat.mod_lt _ hWidth, (Nat.div_add_mod' _ wordBytes).symm⟩
    have hNext : frame.startOffset + (index + 1 - startOf frames i) =
        row * wordBytes + (byte + 1) := by omega
    rw [hNext, hPosition]
    simp only [Origin.precedes, originAt, div_mod_of_lt hByte]
    rcases Nat.eq_or_lt_of_le (Nat.succ_le_of_lt hByte) with hEnd | hInside
    · have hRow : row * wordBytes + (byte + 1) = (row + 1) * wordBytes + 0 := by
        rw [Nat.succ_mul]
        omega
      rw [hRow]
      simp [← hEnd]
    · simp [div_mod_of_lt hInside]
      omega
  · have hOther : stream + i ≠ stream + j := by omega
    simp only [Origin.precedes, originAt, beq_eq_false_iff_ne.mpr hOther,
      beq_eq_false_iff_ne.mpr (Ne.symm hOther), Bool.false_and, Bool.and_false]

end Indices

end Pipeline

/-- An offset is accepted if it addresses a byte of a word. -/
theorem requireInWord_eq_ok {offset wordBytes : Nat} {u : Unit} :
    requireInWord offset wordBytes = .ok u ↔ offset < wordBytes := by
  simp only [requireInWord]
  split <;> simp_all

namespace Layout

variable {wordBytes offset : Nat}

/-- A frame can be placed if it starts in a word and its end is a size. -/
theorem place_eq_ok {stream count outputOffset inputOffset : Nat} {layout : Layout} :
    place wordBytes stream count outputOffset inputOffset = .ok layout ↔
      outputOffset < wordBytes ∧ inputOffset < wordBytes ∧
        ((count = 0 ∧ layout = .empty) ∨
          (0 < count ∧ inputOffset + count ≤ maxSize ∧ layout = ofData wordBytes outputOffset
            (Pipeline.Frame.origins ⟨count, inputOffset⟩ wordBytes stream))) := by
  simp only [place]
  simp only [bind_eq_ok, requireInWord_eq_ok, exists_and_left, exists_const]
  refine and_congr_right fun _ => and_congr_right fun _ => ?_
  by_cases hCount : count = 0
  · simp [hCount, pure, Except.pure, eq_comm]
  · by_cases hSize : maxSize < inputOffset + count
    · simp [hCount, hSize, Nat.not_le.mpr hSize, bind, Except.bind, throw, throwThe,
        MonadExceptOf.throw]
    · simp [hCount, hSize, pure, Except.pure, Nat.pos_of_ne_zero hCount, Nat.not_lt.mp hSize,
        ofData, Pipeline.Frame.origins, Pipeline.Frame.lastWord, eq_comm]

theorem splice_eq_ok {parts : List Layout} {layout : Layout} :
    splice wordBytes parts offset = .ok layout ↔
      offset < wordBytes ∧ layout = ofData wordBytes offset (parts.flatMap data) := by
  simp only [splice]
  simp only [bind_eq_ok, requireInWord_eq_ok, exists_and_left, exists_const, pure, Except.pure,
    Except.ok.injEq, ofData, eq_comm (a := layout)]

/-- Layouts of any kind can be joined at an offset within a word. -/
theorem splice_of_lt (hOffset : offset < wordBytes) (parts : List Layout) :
    splice wordBytes parts offset = .ok (ofData wordBytes offset (parts.flatMap data)) :=
  splice_eq_ok.mpr ⟨hOffset, rfl⟩

theorem data_ofData (hWidth : 0 < wordBytes) (bytes : List Origin) :
    (ofData wordBytes offset bytes).data = bytes := by
  rw [ofData, data_ofCells hWidth, List.filterMap_append, List.filterMap_replicate]
  simp

end Layout

namespace Pipeline

section Placement

variable {wordBytes offset : Nat}

/-- The bytes of a placed frame. -/
theorem data_of_place {stream count outputOffset inputOffset : Nat} {layout : Layout}
    (h : place wordBytes stream count outputOffset inputOffset = .ok layout) :
    layout.data = Frame.origins ⟨count, inputOffset⟩ wordBytes stream := by
  obtain ⟨hWidth, _, ⟨rfl, rfl⟩ | ⟨_, _, rfl⟩⟩ := place_eq_ok.mp h
  · rfl
  · exact data_ofData (by omega) _

/-- Layouts of the frames of the streams from `stream` on, each placed at some offset. -/
def Laid (wordBytes stream : Nat) (frames : List Frame) (parts : List Layout) : Prop :=
  List.Forall₂ (fun indexed part => ∃ outputOffset, place wordBytes indexed.2
    indexed.1.byteCount outputOffset indexed.1.startOffset = .ok part) (frames.zipIdx stream) parts

/-- A layout is the join of a tuple of frames from `offset` on. -/
def JoinOf (wordBytes offset : Nat) (frames : List Frame) (joined : Layout) : Prop :=
  ∃ parts, Laid wordBytes 0 frames parts ∧ splice wordBytes parts offset = .ok joined

theorem flatMap_data_of_laid {stream : Nat} {frames : List Frame} {parts : List Layout}
    (h : Laid wordBytes stream frames parts) :
    parts.flatMap data = tupleOrigins wordBytes stream frames := by
  rw [tupleOrigins_eq_flatMap]
  refine (flatMap_eq_of_forall₂ h fun indexed part hPlaced => ?_).symm
  obtain ⟨_, hPlace⟩ := hPlaced
  exact (data_of_place hPlace).symm

/-- Frames that start in a word and end at a size can be placed. -/
theorem exists_laid (hWidth : 0 < wordBytes) {stream : Nat} {frames : List Frame}
    (h : ∀ frame ∈ frames, frame.startOffset < wordBytes ∧
      (frame.byteCount = 0 ∨ frame.startOffset + frame.byteCount ≤ maxSize)) :
    ∃ parts, Laid wordBytes stream frames parts := by
  induction frames generalizing stream with
  | nil => exact ⟨[], .nil⟩
  | cons frame rest ih =>
      rw [List.forall_mem_cons] at h
      obtain ⟨⟨hStart, hSize⟩, hRest⟩ := h
      obtain ⟨parts, hParts⟩ := @ih (stream + 1) hRest
      have hPlace : ∃ part,
          place wordBytes stream frame.byteCount 0 frame.startOffset = .ok part := by
        rcases Nat.eq_zero_or_pos frame.byteCount with hEmpty | hCount
        · exact ⟨_, place_eq_ok.mpr ⟨hWidth, hStart, .inl ⟨hEmpty, rfl⟩⟩⟩
        · exact ⟨_, place_eq_ok.mpr ⟨hWidth, hStart, .inr ⟨hCount, by omega, rfl⟩⟩⟩
      obtain ⟨part, hPart⟩ := hPlace
      exact ⟨part :: parts, .cons ⟨0, hPart⟩ hParts⟩

/-- The join of a tuple of frames is the layout of its bytes. -/
theorem JoinOf.eq_tupleLayout {frames : List Frame} {joined : Layout}
    (h : JoinOf wordBytes offset frames joined) :
    offset < wordBytes ∧ joined = tupleLayout wordBytes offset frames := by
  obtain ⟨parts, hLaid, hSplice⟩ := h
  obtain ⟨hOffset, rfl⟩ := splice_eq_ok.mp hSplice
  rw [flatMap_data_of_laid hLaid]
  exact ⟨hOffset, rfl⟩

/-- Frames that can be placed have a join. -/
theorem joinOf_tupleLayout (hOffset : offset < wordBytes) {frames : List Frame}
    (h : ∀ frame ∈ frames, frame.startOffset < wordBytes ∧
      (frame.byteCount = 0 ∨ frame.startOffset + frame.byteCount ≤ maxSize)) :
    JoinOf wordBytes offset frames (tupleLayout wordBytes offset frames) := by
  obtain ⟨parts, hParts⟩ := @exists_laid wordBytes (by omega) 0 frames h
  refine ⟨parts, hParts, splice_eq_ok.mpr ⟨hOffset, ?_⟩⟩
  rw [flatMap_data_of_laid hParts]
  rfl

/-- The frames of a join start in a word. -/
theorem JoinOf.startOffset_lt {frames : List Frame} {joined : Layout}
    (h : JoinOf wordBytes offset frames joined) :
    ∀ frame ∈ frames, frame.startOffset < wordBytes := by
  obtain ⟨parts, hLaid, _⟩ := h
  intro frame hMem
  obtain ⟨index, hIndex⟩ := List.mem_iff_getElem?.mp hMem
  have hZip : (frames.zipIdx 0)[index]? = some (frame, index) := by
    rw [List.getElem?_zipIdx, hIndex, Nat.zero_add]
    rfl
  obtain ⟨hBound, hGet⟩ := List.getElem?_eq_some_iff.mp hZip
  obtain ⟨_, hPlace⟩ := (List.forall₂_iff_get.mp hLaid).2 index hBound
    (hLaid.length_eq ▸ hBound)
  rw [List.get_eq_getElem, hGet] at hPlace
  exact (place_eq_ok.mp hPlace).2.1

end Placement

end Pipeline

end StreamSplice
