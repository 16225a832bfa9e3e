import StreamSplice.Proofs.Counting
import StreamSplice.Proofs.Coverage

/-! The enumeration is an exact cross product. The sampled frames of a stream, placed wherever
the frames before it may end, make up the layouts of the stream; the joined layouts are the
splices of one layout of each stream, each combination taken once. -/
namespace StreamSplice

open Layout Pipeline

/-- A frame that is enumerated for a stream at an offset: it starts at one of the start offsets,
and its size is representative there. -/
def Stream.Samples (stream : Stream) (wordBytes offset : Nat) (frame : Frame) : Prop :=
  frame.startOffset ∈ stream.startOffsets ∧ ∃ counts,
    representativeCounts wordBytes offset frame.startOffset stream.elementBytes stream.lengths =
      .ok counts ∧ frame.byteCount ∈ counts

theorem Stream.mem_layouts {stream : Stream} {wordBytes index offset : Nat}
    {layouts : List Layout} (h : stream.layouts wordBytes index offset = .ok layouts)
    {layout : Layout} :
    layout ∈ layouts ↔ ∃ frame, stream.Samples wordBytes offset frame ∧
      place wordBytes index frame.byteCount offset frame.startOffset = .ok layout := by
  obtain ⟨hEach, hFrom⟩ := Stream.layouts_eq_ok h
  constructor
  · intro hMem
    obtain ⟨inputOffset, hStart, counts, hCounts, count, hCount, hPlace⟩ := hFrom layout hMem
    exact ⟨⟨count, inputOffset⟩, ⟨hStart, counts, hCounts, hCount⟩, hPlace⟩
  · rintro ⟨⟨count, inputOffset⟩, ⟨hStart, counts, hCounts, hCount⟩, hPlace⟩
    obtain ⟨counts', hCounts', hLaid⟩ := hEach inputOffset hStart
    cases hCounts.symm.trans hCounts'
    obtain ⟨layout', hMem, hPlace'⟩ := hLaid count hCount
    cases hPlace.symm.trans hPlace'
    exact hMem

/-- The enumerated frames of a stream can be placed. -/
theorem Stream.exists_place {stream : Stream} {wordBytes index offset : Nat}
    {layouts : List Layout} (h : stream.layouts wordBytes index offset = .ok layouts)
    {frame : Frame} (hFrame : stream.Samples wordBytes offset frame) : ∃ layout,
      place wordBytes index frame.byteCount offset frame.startOffset = .ok layout := by
  obtain ⟨hStart, counts, hCounts, hCount⟩ := hFrame
  obtain ⟨counts', hCounts', hPlaced⟩ := (Stream.layouts_eq_ok h).1 _ hStart
  cases hCounts.symm.trans hCounts'
  obtain ⟨layout, _, hPlace⟩ := hPlaced _ hCount
  exact ⟨layout, hPlace⟩

section Enumeration

variable {wordBytes outputOffset limit : Nat} {streams : List Stream} {set : SortedSet Layout}

/-- The layouts of the first stream are those of its enumerated frames, at every offset where it
may start, and the next stream may start wherever one of these frames ends. -/
theorem layoutsPerStream_cons_samples {stream : Stream} {index : Nat} {offsets : SortedSet Nat}
    {sets : List (SortedSet Layout)}
    (h : layoutsPerStream wordBytes index offsets (stream :: streams) = .ok sets) :
    ∃ first later laterOffsets, sets = first :: later ∧
      layoutsPerStream wordBytes (index + 1) laterOffsets streams = .ok later ∧
      (∀ offset ∈ offsets, ∃ layouts, stream.layouts wordBytes index offset = .ok layouts) ∧
      (∀ layout, layout ∈ first ↔ ∃ offset ∈ offsets, ∃ frame,
        stream.Samples wordBytes offset frame ∧
          place wordBytes index frame.byteCount offset frame.startOffset = .ok layout) ∧
      ∀ next, next ∈ laterOffsets ↔ ∃ offset ∈ offsets, ∃ frame,
        stream.Samples wordBytes offset frame ∧ (offset + frame.byteCount) % wordBytes = next := by
  obtain ⟨first, later, laterOffsets, rfl, hLater, hEach, hFirst, hNext⟩ :=
    layoutsPerStream_cons_eq_ok h
  refine ⟨first, later, laterOffsets, rfl, hLater, hEach, fun layout => ?_, fun next => ?_⟩
  · rw [hFirst]
    constructor
    · rintro ⟨offset, hOffset, layouts, hLayouts, hMem⟩
      exact ⟨offset, hOffset, (Stream.mem_layouts hLayouts).mp hMem⟩
    · rintro ⟨offset, hOffset, hFrame⟩
      obtain ⟨layouts, hLayouts⟩ := hEach offset hOffset
      exact ⟨offset, hOffset, layouts, hLayouts, (Stream.mem_layouts hLayouts).mpr hFrame⟩
  · rw [hNext]
    constructor
    · rintro ⟨offset, hOffset, layouts, hLayouts, layout, hMem, rfl⟩
      obtain ⟨frame, hFrame, hPlace⟩ := (Stream.mem_layouts hLayouts).mp hMem
      exact ⟨offset, hOffset, frame, hFrame, (endOffset?_of_place hPlace).symm⟩
    · rintro ⟨offset, hOffset, frame, hFrame, rfl⟩
      obtain ⟨layouts, hLayouts⟩ := hEach offset hOffset
      obtain ⟨layout, hPlace⟩ := Stream.exists_place hLayouts hFrame
      exact ⟨offset, hOffset, layouts, hLayouts, layout,
        (Stream.mem_layouts hLayouts).mpr ⟨frame, hFrame, hPlace⟩, endOffset?_of_place hPlace⟩

/-- Where a stream may start: the first one at the output offset, and any other one where an
enumerated frame of the stream before it ends. -/
inductive StartsAt (wordBytes : Nat) (streams : List Stream) (outputOffset : Nat) :
    (index offset : Nat) → Prop
  | first : StartsAt wordBytes streams outputOffset 0 outputOffset
  | next {index offset : Nat} {stream : Stream} {frame : Frame}
      (hOffset : StartsAt wordBytes streams outputOffset index offset)
      (hStream : streams[index]? = some stream) (hFrame : stream.Samples wordBytes offset frame) :
      StartsAt wordBytes streams outputOffset (index + 1)
        ((offset + frame.byteCount) % wordBytes)

/-- A layout of a stream: one of an enumerated frame, placed where the stream may start. -/
def Offers (wordBytes : Nat) (streams : List Stream) (outputOffset index : Nat)
    (layout : Layout) : Prop :=
  ∃ stream offset frame, streams[index]? = some stream ∧
    StartsAt wordBytes streams outputOffset index offset ∧
    stream.Samples wordBytes offset frame ∧
    place wordBytes index frame.byteCount offset frame.startOffset = .ok layout

/-- One layout of each stream. -/
def Picks (wordBytes : Nat) (streams : List Stream) (outputOffset : Nat)
    (picks : List Layout) : Prop :=
  picks.length = streams.length ∧ ∀ (index : Nat) pick, picks[index]? = some pick →
    Offers wordBytes streams outputOffset index pick

/-- From some stream on, each of them is laid out wherever it may start, and its layouts are
exactly those. -/
theorem offers_of_layoutsPerStream {rest : List Stream} {index : Nat} {offsets : SortedSet Nat}
    {sets : List (SortedSet Layout)} (hRest : streams.drop index = rest)
    (hOffsets : ∀ offset, offset ∈ offsets ↔
      StartsAt wordBytes streams outputOffset index offset)
    (h : layoutsPerStream wordBytes index offsets rest = .ok sets) :
    (∀ (i : Nat) stream offset, rest[i]? = some stream →
      StartsAt wordBytes streams outputOffset (index + i) offset →
      ∃ layouts, stream.layouts wordBytes (index + i) offset = .ok layouts) ∧
    ∀ (i : Nat) found, sets[i]? = some found → ∀ layout,
      layout ∈ found ↔ Offers wordBytes streams outputOffset (index + i) layout := by
  induction rest generalizing index offsets sets with
  | nil =>
      cases h
      refine ⟨fun i stream offset hStream => ?_, fun i found hFound => ?_⟩
      · cases hStream
      · cases hFound
  | cons stream rest ih =>
      obtain ⟨first, later, laterOffsets, rfl, hLater, hEach, hFirst, hNext⟩ :=
        layoutsPerStream_cons_samples h
      have hStream : streams[index]? = some stream := by
        rw [← Nat.add_zero index, ← List.getElem?_drop, hRest]
        rfl
      have hTail : streams.drop (index + 1) = rest := by
        rw [← List.drop_drop, hRest, List.drop_one, List.tail_cons]
      have hStarts : ∀ offset, offset ∈ laterOffsets ↔
          StartsAt wordBytes streams outputOffset (index + 1) offset := by
        intro next
        rw [hNext]
        constructor
        · rintro ⟨offset, hOffset, frame, hFrame, rfl⟩
          exact .next ((hOffsets offset).mp hOffset) hStream hFrame
        · intro hStart
          cases hStart with
          | next hStart hOwn hFrame =>
              cases hStream.symm.trans hOwn
              exact ⟨_, (hOffsets _).mpr hStart, _, hFrame, rfl⟩
      obtain ⟨hLaterEach, hLaterFound⟩ := ih hTail hStarts hLater
      refine ⟨fun i other offset hOther hStart => ?_, fun i found hFound layout => ?_⟩
      · cases i with
        | zero =>
            cases hOther
            exact hEach offset ((hOffsets offset).mpr hStart)
        | succ i =>
            rw [show index + (i + 1) = index + 1 + i by omega] at hStart ⊢
            exact hLaterEach i other offset hOther hStart
      · cases i with
        | zero =>
            cases hFound
            rw [hFirst]
            constructor
            · rintro ⟨offset, hOffset, frame, hFrame, hPlace⟩
              exact ⟨stream, offset, frame, hStream, (hOffsets offset).mp hOffset, hFrame, hPlace⟩
            · rintro ⟨own, offset, frame, hOwn, hStart, hFrame, hPlace⟩
              cases hStream.symm.trans hOwn
              exact ⟨offset, (hOffsets offset).mpr hStart, frame, hFrame, hPlace⟩
        | succ i =>
            rw [show index + (i + 1) = index + 1 + i by omega]
            exact hLaterFound i found hFound layout

/-- The first stream starts at the output offset. -/
theorem mem_ofList_iff_startsAt {offset : Nat} : offset ∈ SortedSet.ofList [outputOffset] ↔
    StartsAt wordBytes streams outputOffset 0 offset := by
  rw [SortedSet.mem_ofList, List.mem_singleton]
  constructor
  · rintro rfl
    exact .first
  · intro hStart
    cases hStart
    rfl

section Sets

variable {sets : List (SortedSet Layout)}
  (hSets : layoutsPerStream wordBytes 0 (.ofList [outputOffset]) streams = .ok sets)

include hSets

/-- Every enumerated frame of a stream is laid out wherever the stream may start. -/
theorem exists_place_of_startsAt {index offset inputOffset : Nat} {stream : Stream}
    (hStream : streams[index]? = some stream)
    (hStart : StartsAt wordBytes streams outputOffset index offset)
    (hInput : inputOffset ∈ stream.startOffsets) :
    ∃ counts, representativeCounts wordBytes offset inputOffset stream.elementBytes
        stream.lengths = .ok counts ∧
      ∀ count ∈ counts, ∃ layout, place wordBytes index count offset inputOffset = .ok layout := by
  obtain ⟨hLaid, _⟩ :=
    offers_of_layoutsPerStream List.drop_zero (fun _ => mem_ofList_iff_startsAt) hSets
  simp only [Nat.zero_add] at hLaid
  obtain ⟨layouts, hLayouts⟩ := hLaid index stream offset hStream hStart
  obtain ⟨counts, hCounts, hPlaced⟩ := (Stream.layouts_eq_ok hLayouts).1 inputOffset hInput
  refine ⟨counts, hCounts, fun count hCount => ?_⟩
  obtain ⟨layout, _, hPlace⟩ := hPlaced count hCount
  exact ⟨layout, hPlace⟩

/-- The members of the sets of layouts are what the streams offer. -/
theorem mem_sets_iff_offers {index : Nat} {found : SortedSet Layout}
    (hFound : sets[index]? = some found) {layout : Layout} :
    layout ∈ found ↔ Offers wordBytes streams outputOffset index layout := by
  obtain ⟨_, hOffers⟩ :=
    offers_of_layoutsPerStream List.drop_zero (fun _ => mem_ofList_iff_startsAt) hSets
  simp only [Nat.zero_add] at hOffers
  exact hOffers index found hFound layout

/-- The choices of one member of each set are the combinations of one layout of each stream. -/
theorem mem_choices_iff_picks {picks : List Layout} :
    picks ∈ choices (sets.map SortedSet.toList) ↔ Picks wordBytes streams outputOffset picks := by
  have hLength := length_layoutsPerStream hSets
  simp only [mem_choices, List.forall₂_map_right_iff, SortedSet.mem_toList]
  constructor
  · intro hPicks
    refine ⟨hPicks.length_eq.trans hLength, fun index pick hPick => ?_⟩
    obtain ⟨found, hFound, hMem⟩ := exists_rel_of_forall₂ hPicks hPick
    exact (mem_sets_iff_offers hSets hFound).mp hMem
  · rintro ⟨hCount, hOffers⟩
    exact forall₂_of_getElem? (hCount.trans hLength.symm) fun index pick found hPick hFound =>
      (mem_sets_iff_offers hSets hFound).mpr (hOffers index pick hPick)

end Sets

/-- The enumeration is the exact cross product. Every enumerated frame of every stream is laid
out wherever the stream may start, and these layouts are the sets of layouts to choose from.
The joined layouts are exactly the splices of one layout of each stream. Counting through the
sets shows the combinations that are spliced, each of them once, and stops: at once if one of
the sets is empty, and after the single empty combination if there are no streams. -/
theorem joinedLayouts_crossProduct
    (h : joinedLayouts wordBytes streams outputOffset limit = .ok set) :
    (∀ (index : Nat) stream offset, streams[index]? = some stream →
      StartsAt wordBytes streams outputOffset index offset →
      ∀ inputOffset ∈ stream.startOffsets, ∃ counts,
        representativeCounts wordBytes offset inputOffset stream.elementBytes stream.lengths =
          .ok counts ∧
        ∀ count ∈ counts, ∃ layout,
          place wordBytes index count offset inputOffset = .ok layout) ∧
    (∀ picks, Picks wordBytes streams outputOffset picks →
      ∃ layout, splice wordBytes picks outputOffset = .ok layout) ∧
    (∀ layout, layout ∈ set ↔ ∃ picks, Picks wordBytes streams outputOffset picks ∧
      splice wordBytes picks outputOffset = .ok layout) ∧
    ∃ sets : List (SortedSet Layout),
      layoutsPerStream wordBytes 0 (.ofList [outputOffset]) streams = .ok sets ∧
      sets.length = streams.length ∧
      (∀ (index : Nat) found, sets[index]? = some found → ∀ layout,
        layout ∈ found ↔ Offers wordBytes streams outputOffset index layout) ∧
      ∃ combinations, (∀ shown,
          Odometer.Yields (Odometer.start? (sets.map SortedSet.toList)) shown ↔
            shown = combinations) ∧
        SortedSet.collect (splice wordBytes · outputOffset) combinations = .ok set ∧
        combinations.Nodup ∧
        (∀ picks, picks ∈ combinations ↔ Picks wordBytes streams outputOffset picks) ∧
        combinations.length = (sets.map SortedSet.size).prod ∧
        ((∃ found ∈ sets, ∀ layout, layout ∉ found) → combinations = []) ∧
        (streams = [] → combinations = [[]]) := by
  obtain ⟨sets, hSets, hCollect⟩ := exists_collect_of_joinedLayouts h
  have hPicks : ∀ picks, picks ∈ choices (sets.map SortedSet.toList) ↔
      Picks wordBytes streams outputOffset picks := fun picks => mem_choices_iff_picks hSets
  refine ⟨fun index stream offset hStream hStart inputOffset hInput =>
      exists_place_of_startsAt hSets hStream hStart hInput, fun picks hMem => ?_, fun layout => ?_,
    sets, hSets, length_layoutsPerStream hSets,
    fun index found hFound layout => mem_sets_iff_offers hSets hFound,
    choices (sets.map SortedSet.toList), fun shown => Odometer.yields_start?_iff, hCollect, ?_,
    hPicks, ?_, ?_, ?_⟩
  · obtain ⟨joined, _, hSplice⟩ :=
      (SortedSet.collect_eq_ok hCollect).1 picks ((hPicks picks).mpr hMem)
    exact ⟨joined, hSplice⟩
  · rw [SortedSet.mem_iff_of_collect hCollect]
    simp only [hPicks]
  · apply nodup_choices
    intro options hOptions
    obtain ⟨found, _, rfl⟩ := List.mem_map.mp hOptions
    exact found.nodup_toList
  · rw [length_choices, List.map_map]
    rfl
  · rintro ⟨found, hFound, hEmpty⟩
    apply choices_eq_nil
    have hNone : found.toList = [] :=
      List.eq_nil_iff_forall_not_mem.mpr fun layout hMem =>
        hEmpty layout (SortedSet.mem_toList.mp hMem)
    exact hNone ▸ List.mem_map_of_mem hFound
  · rintro rfl
    cases hSets
    rfl

/-- Up to two bytes from either byte of a word, and one or two more behind them. -/
def upToTwoThenMore : List Stream :=
  [⟨8, .ofList [0, 1], ⟨0, some 2⟩⟩, ⟨8, .ofList [0], ⟨1, some 2⟩⟩]

theorem joinedLayouts_crossProduct_upToTwoThenMore :
    ∃ set sets combinations, joinedLayouts 2 upToTwoThenMore 1 64 = .ok set ∧
      layoutsPerStream 2 0 (.ofList [1]) upToTwoThenMore = .ok sets ∧
      Odometer.Yields (Odometer.start? (sets.map SortedSet.toList)) combinations ∧
      combinations.length = 20 ∧
      ∀ layout, layout ∈ set ↔ ∃ picks ∈ combinations, splice 2 picks 1 = .ok layout := by
  have h : joinedLayouts 2 upToTwoThenMore 1 64 = .ok _ := rfl
  obtain ⟨_, _, hSet, sets, hSets, _, _, combinations, hYields, _, _, hPicks, hCount, _⟩ :=
    joinedLayouts_crossProduct h
  refine ⟨_, sets, combinations, h, hSets, (hYields combinations).mpr rfl, ?_, fun layout => ?_⟩
  · rw [hCount]
    cases hSets
    rfl
  · rw [hSet]
    simp only [hPicks]

end Enumeration

end StreamSplice
