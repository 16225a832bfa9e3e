import StreamSplice.Layout.Enumeration
import StreamSplice.Proofs.Lengthening
import StreamSplice.Proofs.Sampling

/-! Enumerated layouts cover all layouts, and nothing else. The layouts of each stream are
enumerated at every position where the streams before it may end, so the frames of a tuple
can be replaced by representatives one after the other, each at the position where it
really starts. Conversely, representatives can be lengthened wherever they are placed. -/
namespace StreamSplice

open Layout Pipeline

/-- The choices are the lists with one element of each list. -/
theorem mem_choices {α : Type} {lists : List (List α)} {choice : List α} :
    choice ∈ choices lists ↔ List.Forall₂ (· ∈ ·) choice lists := by
  induction lists generalizing choice with
  | nil => simp [choices]
  | cons options rest ih =>
      simp only [choices_cons, List.mem_flatMap, List.mem_map, ih]
      constructor
      · rintro ⟨head, hHead, tail, hTail, rfl⟩
        exact .cons hHead hTail
      · intro h
        cases h with
        | cons hHead hTail => exact ⟨_, hHead, _, hTail, rfl⟩

namespace Layout

/-- The last byte of a word is found from its end. -/
theorem length_dropWhile_reverse {cells : List Cell} {position : Nat} {origin : Origin}
    (hLast : cells[position]? = some (some origin))
    (hRest : ∀ cell ∈ cells.drop (position + 1), cell = none) :
    (cells.reverse.dropWhile Option.isNone).length = position + 1 := by
  obtain ⟨hBound, hCell⟩ := List.getElem?_eq_some_iff.mp hLast
  conv_lhs => rw [← List.take_append_drop (position + 1) cells, List.reverse_append]
  rw [List.dropWhile_append_of_pos fun cell hMem => by
      rw [hRest cell (List.mem_reverse.mp hMem)]
      rfl,
    List.take_succ_eq_append_getElem hBound, hCell, List.reverse_append, List.reverse_singleton,
    List.singleton_append, List.dropWhile_cons_of_neg (by simp)]
  simp
  omega

/-- The bytes that follow consecutive bytes start where those end. -/
theorem endOffset?_ofData {wordBytes offset : Nat} (hOffset : offset < wordBytes)
    {data : List Origin} (hData : data ≠ []) :
    (ofData wordBytes offset data).endOffset? wordBytes =
      some ((offset + data.length) % wordBytes) := by
  have hWidth : 0 < wordBytes := by omega
  have hCount := List.length_pos_iff.mpr hData
  obtain ⟨word, hWord⟩ : ∃ word, wordsSpanned wordBytes (offset + data.length) = word + 1 :=
    ⟨_, wordsSpanned_of_pos hWidth (by omega)⟩
  have hBelow : word * wordBytes < offset + data.length :=
    (lt_wordsSpanned_iff hWidth).mp (by omega)
  have hAbove : offset + data.length ≤ word * wordBytes + wordBytes := by
    rw [← Nat.succ_mul]
    exact Nat.not_lt.mp ((lt_wordsSpanned_iff hWidth).not.mp (by omega))
  have hLast : (ofData wordBytes offset data).words.getLast? =
      some (dataWord wordBytes offset data word) := by
    rw [List.getLast?_eq_getElem?, length_words_ofData, hWord, Nat.add_sub_cancel,
      getElem?_words_ofData, if_pos (by omega)]
  obtain ⟨position, hPosition⟩ : ∃ position,
      offset + data.length = word * wordBytes + (position + 1) :=
    ⟨offset + data.length - word * wordBytes - 1, by omega⟩
  have hCell : (dataWord wordBytes offset data word)[position]? =
      some (some data[data.length - 1]) := by
    rw [getElem?_dataWord, if_pos (by omega), cellAt, if_neg (by omega),
      ← List.getElem?_eq_getElem]
    congr 2
    omega
  have hRest : ∀ cell ∈ (dataWord wordBytes offset data word).drop (position + 1), cell = none := by
    intro cell hMem
    obtain ⟨i, hi⟩ := List.mem_iff_getElem?.mp hMem
    rw [List.getElem?_drop, getElem?_dataWord] at hi
    split at hi
    · cases hi
      rw [cellAt, if_neg (by omega), List.getElem?_eq_none (by omega)]
    · cases hi
  rw [endOffset?, hLast, hPosition]
  simp only [Option.bind_eq_bind, Option.bind_some, length_dropWhile_reverse hCell hRest,
    Nat.mul_add_mod_self_right]

/-- What follows a placed frame starts where the frame ends. -/
theorem endOffset?_of_place {wordBytes stream count outputOffset inputOffset : Nat}
    {layout : Layout}
    (h : place wordBytes stream count outputOffset inputOffset = .ok layout) :
    (layout.endOffset? wordBytes).getD outputOffset = (outputOffset + count) % wordBytes := by
  obtain ⟨hOffset, _, ⟨rfl, rfl⟩ | ⟨hCount, _, rfl⟩⟩ := place_eq_ok.mp h
  · exact (Nat.mod_eq_of_lt hOffset).symm
  · have hLength : (Frame.origins ⟨count, inputOffset⟩ wordBytes stream).length = count :=
      Frame.length_origins ..
    rw [endOffset?_ofData hOffset (List.ne_nil_of_length_pos (by omega)), Option.getD_some, hLength]

end Layout

/-- A frame that a stream may send: it starts at one of the start offsets, and its length
is a size in the range of the stream. -/
def Stream.Sends (stream : Stream) (frame : Frame) : Prop :=
  frame.startOffset ∈ stream.startOffsets ∧ ∃ n, stream.lengths.admits n ∧ n ≤ maxSize ∧
    frame.byteCount = stream.elementBytes * n

section Enumeration

variable {wordBytes index : Nat} {offsets : SortedSet Nat} {stream : Stream}
  {streams : List Stream} {sets : List (SortedSet Layout)}

/-- The enumerated layouts of a stream: a frame for every start offset and every
representative count, each of which can be placed. -/
theorem Stream.layouts_eq_ok {outputOffset : Nat} {layouts : List Layout}
    (h : stream.layouts wordBytes index outputOffset = .ok layouts) :
    (∀ inputOffset ∈ stream.startOffsets, ∃ counts,
      representativeCounts wordBytes outputOffset inputOffset stream.elementBytes
        stream.lengths = .ok counts ∧
      ∀ count ∈ counts, ∃ layout ∈ layouts,
        place wordBytes index count outputOffset inputOffset = .ok layout) ∧
    ∀ layout ∈ layouts, ∃ inputOffset ∈ stream.startOffsets, ∃ counts,
      representativeCounts wordBytes outputOffset inputOffset stream.elementBytes
        stream.lengths = .ok counts ∧
      ∃ count ∈ counts, place wordBytes index count outputOffset inputOffset = .ok layout := by
  obtain ⟨perOffset, hOffsets, h⟩ := bind_eq_ok.mp h
  cases h
  obtain ⟨hEach, hFrom⟩ := mem_of_mapM_eq_ok hOffsets
  constructor
  · intro inputOffset hMem
    obtain ⟨placed, hPlaced, h⟩ := hEach inputOffset hMem
    obtain ⟨counts, hCounts, h⟩ := bind_eq_ok.mp h
    refine ⟨counts, hCounts, fun count hCount => ?_⟩
    obtain ⟨layout, hLayout, hPlace⟩ := (mem_of_mapM_eq_ok h).1 count hCount
    exact ⟨layout, List.mem_flatten.mpr ⟨placed, hPlaced, hLayout⟩, hPlace⟩
  · intro layout hMem
    obtain ⟨placed, hPlaced, hLayout⟩ := List.mem_flatten.mp hMem
    obtain ⟨inputOffset, hOffset, h⟩ := hFrom placed hPlaced
    obtain ⟨counts, hCounts, h⟩ := bind_eq_ok.mp h
    exact ⟨inputOffset, hOffset, counts, hCounts, (mem_of_mapM_eq_ok h).2 layout hLayout⟩

/-- The layouts of the first stream are enumerated at every offset where it may start, and the
next stream may start wherever one of them ends. -/
theorem layoutsPerStream_cons_eq_ok
    (h : layoutsPerStream wordBytes index offsets (stream :: streams) = .ok sets) :
    ∃ first later laterOffsets, sets = first :: later ∧
      layoutsPerStream wordBytes (index + 1) laterOffsets streams = .ok later ∧
      (∀ offset ∈ offsets, ∃ layouts, stream.layouts wordBytes index offset = .ok layouts) ∧
      (∀ layout, layout ∈ first ↔ ∃ offset ∈ offsets, ∃ layouts,
        stream.layouts wordBytes index offset = .ok layouts ∧ layout ∈ layouts) ∧
      ∀ next, next ∈ laterOffsets ↔ ∃ offset ∈ offsets, ∃ layouts,
        stream.layouts wordBytes index offset = .ok layouts ∧
          ∃ layout ∈ layouts, (layout.endOffset? wordBytes).getD offset = next := by
  rw [layoutsPerStream] at h
  obtain ⟨perOffset, hOffsets, h⟩ := bind_eq_ok.mp h
  obtain ⟨later, hLater, h⟩ := bind_eq_ok.mp h
  cases h
  obtain ⟨hEach, hFrom⟩ := mem_of_mapM_eq_ok hOffsets
  have hFound : ∀ layout next, (layout, next) ∈ perOffset.flatten ↔ ∃ offset ∈ offsets,
      ∃ layouts, stream.layouts wordBytes index offset = .ok layouts ∧ layout ∈ layouts ∧
        (layout.endOffset? wordBytes).getD offset = next := by
    intro layout next
    rw [List.mem_flatten]
    constructor
    · rintro ⟨ended, hEnded, hMem⟩
      obtain ⟨offset, hOffset, h⟩ := hFrom ended hEnded
      obtain ⟨layouts, hLayouts, h⟩ := bind_eq_ok.mp h
      cases h
      obtain ⟨placed, hPlaced, h⟩ := List.mem_map.mp hMem
      cases h
      exact ⟨offset, hOffset, layouts, hLayouts, hPlaced, rfl⟩
    · rintro ⟨offset, hOffset, layouts, hLayouts, hMem, rfl⟩
      obtain ⟨ended, hEnded, h⟩ := hEach offset hOffset
      obtain ⟨found, hFound, h⟩ := bind_eq_ok.mp h
      cases hLayouts.symm.trans hFound
      cases h
      exact ⟨_, hEnded, List.mem_map_of_mem hMem⟩
  refine ⟨_, later, _, rfl, hLater, fun offset hOffset => ?_, fun layout => ?_, fun next => ?_⟩
  · obtain ⟨_, _, h⟩ := hEach offset hOffset
    obtain ⟨layouts, hLayouts, _⟩ := bind_eq_ok.mp h
    exact ⟨layouts, hLayouts⟩
  · simp only [SortedSet.mem_ofList, List.mem_map, Prod.exists, exists_and_right, exists_eq_right,
      hFound]
    constructor
    · rintro ⟨_, offset, hOffset, layouts, hLayouts, hMem, _⟩
      exact ⟨offset, hOffset, layouts, hLayouts, hMem⟩
    · rintro ⟨offset, hOffset, layouts, hLayouts, hMem⟩
      exact ⟨_, offset, hOffset, layouts, hLayouts, hMem, rfl⟩
  · simp only [SortedSet.mem_ofList, List.mem_map, Prod.exists, exists_eq_right, hFound]
    constructor
    · rintro ⟨layout, offset, hOffset, layouts, hLayouts, hMem, hEnd⟩
      exact ⟨offset, hOffset, layouts, hLayouts, layout, hMem, hEnd⟩
    · rintro ⟨offset, hOffset, layouts, hLayouts, layout, hMem, hEnd⟩
      exact ⟨layout, offset, hOffset, layouts, hLayouts, hMem, hEnd⟩

variable {offset : Nat} {context : Context}

section OneStream

variable {outputOffset : Nat} {layouts : List Layout}

/-- An enumerated layout of a stream is laid out from a frame that can be lengthened to one
that the stream sends, and the longer frame has all contexts of the enumerated one. -/
theorem exists_sends_of_mem_layouts (hOffset : offset < wordBytes)
    (h : stream.layouts wordBytes index outputOffset = .ok layouts) {part : Layout}
    (hMem : part ∈ layouts) :
    ∃ short frame : Frame,
      place wordBytes index short.byteCount outputOffset short.startOffset = .ok part ∧
      stream.Sends frame ∧ frame.startOffset < wordBytes ∧
      (frame.byteCount = 0 ∨ frame.startOffset + frame.byteCount ≤ maxSize) ∧
      ∀ before after context,
        (tupleLayout wordBytes offset (before ++ short :: after)).HasContext context →
        (tupleLayout wordBytes offset (before ++ frame :: after)).HasContext context := by
  obtain ⟨startOffset, hStart, counts, hCounts, count, hCount, hPlace⟩ :=
    (Stream.layouts_eq_ok h).2 _ hMem
  obtain ⟨n, hAdmits, hFits, rfl⟩ := exists_of_mem_representativeCounts hCounts hCount
  obtain ⟨hOutput, hInput, hElement, _⟩ := representativeCounts_eq_ok hCounts
  obtain ⟨words, hSize, _, hLong⟩ := exists_eq_representativeSize_add
    stream.elementBytes n (Nat.max_lt.mpr ⟨hOutput, hInput⟩)
  have hLength : n ≤ maxSize := by
    have := Nat.le_mul_of_pos_left n hElement
    omega
  have hBytes : stream.elementBytes * n = 0 ∨ startOffset + stream.elementBytes * n ≤ maxSize :=
    hFits.imp_left fun hZero => by rw [hZero, Nat.mul_zero]
  refine ⟨⟨_, startOffset⟩, ⟨stream.elementBytes * n, startOffset⟩, hPlace,
    ⟨hStart, n, hAdmits, hLength, rfl⟩, hInput, hBytes, fun before after context hContext => ?_⟩
  rw [hSize]
  have hMore : 0 < words → 2 * wordBytes < startOffset + representativeSize wordBytes
      (max outputOffset startOffset) stream.elementBytes n := by
    intro hWords
    have := hLong hWords
    omega
  exact hasContext_add_words hOffset hInput hMore hContext

/-- A frame that a stream sends can be replaced by an enumerated one placed where the frames
before it end, and no context is lost. -/
theorem exists_mem_layouts_of_sends (hOffset : offset < wordBytes) {before : List Frame}
    (h : stream.layouts wordBytes index ((offset + byteTotal before) % wordBytes) = .ok layouts)
    {frame : Frame} (hSends : stream.Sends frame) :
    ∃ short : Frame, ∃ part ∈ layouts,
      place wordBytes index short.byteCount ((offset + byteTotal before) % wordBytes)
        short.startOffset = .ok part ∧
      ∀ after context,
        (tupleLayout wordBytes offset (before ++ frame :: after)).HasContext context →
        (tupleLayout wordBytes offset (before ++ short :: after)).HasContext context := by
  obtain ⟨bytes, startOffset⟩ := frame
  obtain ⟨hFrame, n, hAdmits, hLength, hBytes⟩ := hSends
  dsimp only at hFrame hBytes
  obtain ⟨counts, hCounts, hPlaced⟩ := (Stream.layouts_eq_ok h).1 _ hFrame
  have hCount := (mem_representativeCounts hCounts).mpr ⟨n, hAdmits, hLength, rfl⟩
  obtain ⟨part, hPart, hPlace⟩ := hPlaced _ hCount
  obtain ⟨hOutput, hInput, _⟩ := representativeCounts_eq_ok hCounts
  obtain ⟨words, hSize, _, hLong⟩ := exists_eq_representativeSize_add
    stream.elementBytes n (Nat.max_lt.mpr ⟨hOutput, hInput⟩)
  refine ⟨⟨_, startOffset⟩, part, hPart, hPlace, fun after context hContext => ?_⟩
  rw [hBytes, hSize] at hContext
  exact hasContext_of_add_words hOffset hInput hLong hContext

end OneStream

/-- Enumerated layouts are laid out from frames that can be lengthened to frames that the
streams send, and the longer frames have all contexts of the enumerated ones. -/
theorem exists_sends_of_enumerated (hOffset : offset < wordBytes) {parts : List Layout}
    (h : layoutsPerStream wordBytes index offsets streams = .ok sets)
    (hParts : List.Forall₂ (· ∈ ·) parts sets) :
    ∃ short frames, Laid wordBytes index short parts ∧
      List.Forall₂ Stream.Sends streams frames ∧
      (∀ frame ∈ frames, frame.startOffset < wordBytes ∧
        (frame.byteCount = 0 ∨ frame.startOffset + frame.byteCount ≤ maxSize)) ∧
      ∀ before context, (tupleLayout wordBytes offset (before ++ short)).HasContext context →
        (tupleLayout wordBytes offset (before ++ frames)).HasContext context := by
  induction streams generalizing index offsets sets parts with
  | nil =>
      cases h
      cases hParts
      exact ⟨[], [], .nil, .nil, by simp, fun _ _ h => h⟩
  | cons stream streams ih =>
      obtain ⟨first, later, laterOffsets, rfl, hLater, _, hFirst, _⟩ :=
        layoutsPerStream_cons_eq_ok h
      cases hParts with
      | cons hPart hRest =>
          obtain ⟨short, frames, hLaid, hSends, hSizes, hContexts⟩ := ih hLater hRest
          obtain ⟨outputOffset, _, layouts, hLayouts, hMem⟩ := (hFirst _).mp hPart
          obtain ⟨head, frame, hPlace, hSend, hStart, hBytes, hLonger⟩ :=
            exists_sends_of_mem_layouts hOffset hLayouts hMem
          refine ⟨head :: short, frame :: frames, .cons ⟨outputOffset, hPlace⟩ hLaid,
            .cons hSend hSends, List.forall_mem_cons.mpr ⟨⟨hStart, hBytes⟩, hSizes⟩, ?_⟩
          intro before context hContext
          rw [List.append_cons]
          apply hContexts
          rw [← List.append_cons]
          exact hLonger before short context hContext

/-- Frames that the streams send can be replaced, one after the other, by enumerated ones
placed where the frames before them end, and no context is lost. -/
theorem exists_enumerated_of_sends (hOffset : offset < wordBytes)
    (h : layoutsPerStream wordBytes index offsets streams = .ok sets) {frames before : List Frame}
    (hSends : List.Forall₂ Stream.Sends streams frames)
    (hStart : (offset + byteTotal before) % wordBytes ∈ offsets)
    (hContext : (tupleLayout wordBytes offset (before ++ frames)).HasContext context) :
    ∃ short parts, Laid wordBytes index short parts ∧ List.Forall₂ (· ∈ ·) parts sets ∧
      (tupleLayout wordBytes offset (before ++ short)).HasContext context := by
  induction streams generalizing index offsets sets frames before with
  | nil =>
      cases h
      cases hSends
      exact ⟨[], [], .nil, .nil, hContext⟩
  | cons stream streams ih =>
      obtain ⟨first, later, laterOffsets, rfl, hLater, hEach, hFirst, hOffsets⟩ :=
        layoutsPerStream_cons_eq_ok h
      cases hSends with
      | @cons _ frame _ frames hHead hRest =>
          obtain ⟨layouts, hLayouts⟩ := hEach _ hStart
          obtain ⟨head, part, hPart, hPlace, hShorter⟩ :=
            exists_mem_layouts_of_sends hOffset hLayouts hHead
          have hContext := hShorter frames context hContext
          have hEnd := (hOffsets _).mpr ⟨_, hStart, layouts, hLayouts, part, hPart, rfl⟩
          rw [endOffset?_of_place hPlace, Nat.mod_add_mod] at hEnd
          rw [List.append_cons] at hContext
          obtain ⟨short, parts, hLaid, hParts, hShort⟩ := ih hLater hRest (by
            simpa [byteTotal, Nat.add_assoc] using hEnd) hContext
          rw [← List.append_cons] at hShort
          exact ⟨head :: short, part :: parts, .cons ⟨_, hPlace⟩ hLaid,
            .cons ((hFirst part).mpr ⟨_, hStart, layouts, hLayouts, hPart⟩) hParts, hShort⟩

variable {limit : Nat} {set : SortedSet Layout}

/-- The choices of one enumerated layout per stream are spliced one after the other. -/
theorem exists_collect_of_joinedLayouts
    (h : joinedLayouts wordBytes streams offset limit = .ok set) :
    ∃ sets, layoutsPerStream wordBytes 0 (.ofList [offset]) streams = .ok sets ∧
      SortedSet.collect (splice wordBytes · offset) (choices (sets.map SortedSet.toList)) =
        .ok set := by
  obtain ⟨sets, hSets, h⟩ := bind_eq_ok.mp h
  obtain ⟨_, _, hCollect⟩ := bind_eq_ok.mp h
  exact ⟨sets, hSets, hCollect⟩

/-- The joined layouts are the splices of one enumerated layout per stream. -/
theorem joinedLayouts_eq_ok (h : joinedLayouts wordBytes streams offset limit = .ok set) :
    ∃ sets, layoutsPerStream wordBytes 0 (.ofList [offset]) streams = .ok sets ∧
      (∀ parts, List.Forall₂ (· ∈ ·) parts sets →
        ∃ joined ∈ set, splice wordBytes parts offset = .ok joined) ∧
      ∀ joined ∈ set, ∃ parts, List.Forall₂ (· ∈ ·) parts sets ∧
        splice wordBytes parts offset = .ok joined := by
  obtain ⟨sets, hSets, hCollect⟩ := exists_collect_of_joinedLayouts h
  obtain ⟨hEach, hFrom⟩ := SortedSet.collect_eq_ok hCollect
  simp only [mem_choices, List.forall₂_map_right_iff, SortedSet.mem_toList] at hEach hFrom
  exact ⟨sets, hSets, hEach, hFrom⟩

theorem length_layoutsPerStream (h : layoutsPerStream wordBytes index offsets streams = .ok sets) :
    sets.length = streams.length := by
  induction streams generalizing index offsets sets with
  | nil =>
      cases h
      rfl
  | cons stream streams ih =>
      obtain ⟨first, later, laterOffsets, rfl, hLater, _⟩ := layoutsPerStream_cons_eq_ok h
      rw [List.length_cons, List.length_cons, ih hLater]

/-- Every enumerated layout is the joined layout of a tuple of frames, one for each stream. -/
theorem exists_tuple_of_mem_joinedLayouts
    (h : joinedLayouts wordBytes streams offset limit = .ok set) {layout : Layout}
    (hMem : layout ∈ set) :
    offset < wordBytes ∧ ∃ frames : List Frame, frames.length = streams.length ∧
      layout = tupleLayout wordBytes offset frames := by
  obtain ⟨sets, hSets, _, hFrom⟩ := joinedLayouts_eq_ok h
  obtain ⟨parts, hParts, hSplice⟩ := hFrom layout hMem
  have hOffset := (splice_eq_ok.mp hSplice).1
  obtain ⟨short, _, hLaid, _⟩ := exists_sends_of_enumerated hOffset hSets hParts
  have hLength : short.length = parts.length := by simpa using hLaid.length_eq
  refine ⟨hOffset, short, ?_, (JoinOf.eq_tupleLayout ⟨parts, hLaid, hSplice⟩).2⟩
  rw [hLength, hParts.length_eq, length_layoutsPerStream hSets]

/-- Every context of a tuple of frames that the streams send occurs in the joined layout of
representative frames, however long the frames are. -/
theorem exists_joinedLayouts_of_sends
    (h : joinedLayouts wordBytes streams offset limit = .ok set) (hOffset : offset < wordBytes)
    {frames : List Frame} (hSends : List.Forall₂ Stream.Sends streams frames)
    (hContext : (tupleLayout wordBytes offset frames).HasContext context) :
    ∃ short, tupleLayout wordBytes offset short ∈ set ∧
      (tupleLayout wordBytes offset short).HasContext context := by
  obtain ⟨sets, hSets, hEach, _⟩ := joinedLayouts_eq_ok h
  have hStart : (offset + byteTotal []) % wordBytes ∈ SortedSet.ofList [offset] := by
    rw [SortedSet.mem_ofList, List.mem_singleton]
    exact Nat.mod_eq_of_lt hOffset
  obtain ⟨short, parts, hLaid, hParts, hShort⟩ :=
    exists_enumerated_of_sends hOffset hSets hSends hStart
      (show (tupleLayout wordBytes offset ([] ++ frames)).HasContext context from hContext)
  obtain ⟨joined, hJoined, hSplice⟩ := hEach parts hParts
  rw [(JoinOf.eq_tupleLayout ⟨parts, hLaid, hSplice⟩).2] at hJoined
  exact ⟨short, hJoined, hShort⟩

/-- The enumerated layouts stand for all layouts and for nothing else: a context occurs in
one of them if and only if it occurs in the joined layout of some frames that the streams
send. Frames whose bytes do not fit have no layout. -/
theorem hasContext_joinedLayouts_iff
    (h : joinedLayouts wordBytes streams offset limit = .ok set) (context : Context) :
    (∃ layout ∈ set, layout.HasContext context) ↔
      ∃ frames joined, List.Forall₂ Stream.Sends streams frames ∧
        JoinOf wordBytes offset frames joined ∧ joined.HasContext context := by
  constructor
  · rintro ⟨layout, hLayout, hContext⟩
    obtain ⟨sets, hSets, _, hFrom⟩ := joinedLayouts_eq_ok h
    obtain ⟨parts, hParts, hSplice⟩ := hFrom layout hLayout
    have hOffset := (splice_eq_ok.mp hSplice).1
    obtain ⟨short, frames, hLaid, hSends, hSizes, hContexts⟩ :=
      exists_sends_of_enumerated hOffset hSets hParts
    rw [(JoinOf.eq_tupleLayout ⟨parts, hLaid, hSplice⟩).2] at hContext
    exact ⟨frames, _, hSends, joinOf_tupleLayout hOffset hSizes, hContexts [] context hContext⟩
  · rintro ⟨frames, joined, hSends, hJoin, hContext⟩
    obtain ⟨hOffset, rfl⟩ := hJoin.eq_tupleLayout
    obtain ⟨short, hShort⟩ := exists_joinedLayouts_of_sends h hOffset hSends hContext
    exact ⟨_, hShort⟩

/-- Frames of any number of pairs of bytes that start in the middle of a word, behind an
optional byte. -/
def optionalThenPairs : List Stream :=
  [⟨8, .ofList [0], ⟨0, some 1⟩⟩, ⟨16, .ofList [1], ⟨1, none⟩⟩]

theorem hasContext_joinedLayouts_iff_optionalThenPairs :
    ∃ set, joinedLayouts 2 optionalThenPairs 1 16 = .ok set ∧ ∀ context,
      (∃ layout ∈ set, layout.HasContext context) ↔
        ∃ frames joined, List.Forall₂ Stream.Sends optionalThenPairs frames ∧
          JoinOf 2 1 frames joined ∧ joined.HasContext context := by
  have h : joinedLayouts 2 optionalThenPairs 1 16 = .ok _ := rfl
  exact ⟨_, h, hasContext_joinedLayouts_iff h⟩

end Enumeration

end StreamSplice
