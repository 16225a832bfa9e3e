import StreamSplice.Proofs.Checking
import StreamSplice.Proofs.Coverage
import StreamSplice.Proofs.Soundness
import StreamSplice.Synthesis

/-! End-to-end correctness. A synthesized machine joins every finite sequence of tuples of
frames that the streams may send, whatever their lengths. -/
namespace StreamSplice

open Layout Pipeline

/-- A stream that sends an empty frame may be empty. -/
theorem Stream.canBeEmpty_of_sends {stream : Stream} {frame : Frame}
    (hElement : 0 < stream.elementBytes) (hSends : stream.Sends frame)
    (hEmpty : frame.byteCount = 0) : stream.canBeEmpty = true := by
  obtain ⟨_, n, hAdmits, _, hBytes⟩ := hSends
  have hNone : n = 0 := by
    rcases Nat.mul_eq_zero.mp (hBytes.symm.trans hEmpty) with hZero | hZero
    · omega
    · exact hZero
  have hShortest : stream.lengths.shortest = 0 := Nat.eq_zero_of_le_zero (hNone ▸ hAdmits.1)
  rw [canBeEmpty, hShortest]
  rfl

namespace Pipeline

/-- The bytes of the frames of a tuple, one frame after the other, for the streams from
`stream` on. -/
def tupleBytes (tuple : Nat) : (stream : Nat) → List Frame → List FrameByte
  | _, [] => []
  | stream, frame :: rest =>
      (List.range frame.byteCount).map (FrameByte.mk tuple stream) ++
        tupleBytes tuple (stream + 1) rest

/-- The output word of a cycle: the bytes of the tuple from the output offset on, as far as
they fall into the word. -/
def joinedWord (wordBytes offset tuple : Nat) (frames : List Frame) (cycle : Nat) : OutputWord where
  bytes := (List.range wordBytes).map fun byte =>
    let position := cycle * wordBytes + byte
    if position < offset then none
    else (tupleBytes tuple 0 frames)[position - offset]?.map some
  last := cycle + 1 == cycleCount wordBytes offset frames

/-- The output words of tuples of frames, the first tuple being number `tuple`. -/
def joinedWords (wordBytes offset tuple : Nat) (tuples : List (List Frame)) : List OutputWord :=
  (tuples.zipIdx tuple).flatMap fun (frames, index) =>
    (List.range (cycleCount wordBytes offset frames)).map (joinedWord wordBytes offset index frames)

/-- The bytes of a joined layout are the bytes of the frames, in their order. -/
theorem map_frameByte_tupleOrigins {wordBytes tuple stream : Nat} {frames : List Frame}
    {start : Nat → Nat}
    (hStart : ∀ (i : Nat) frame, frames[i]? = some frame → start (stream + i) = frame.startOffset) :
    (tupleOrigins wordBytes stream frames).map (fun origin => ⟨tuple, origin.stream,
        origin.word * wordBytes + origin.byte - start origin.stream⟩) =
      tupleBytes tuple stream frames := by
  induction frames generalizing stream with
  | nil => rfl
  | cons frame rest ih =>
      rw [tupleOrigins, List.map_append, tupleBytes, ih fun i later hLater => by
        rw [Nat.add_assoc, Nat.add_comm 1]
        exact hStart (i + 1) later hLater]
      congr 1
      have hFrame := hStart 0 frame rfl
      rw [Nat.add_zero] at hFrame
      rw [Frame.origins, List.map_map, List.range'_eq_map_range, List.map_map]
      apply List.map_congr_left
      intro index _
      simp [originAt, hFrame, Nat.div_add_mod']

/-- The output of a word of a tuple, in terms of the bytes of its frames. -/
theorem wordOutput_eq_joinedWord {wordBytes offset tuple word : Nat} {frames : List Frame}
    (hOffset : offset < wordBytes) (hWord : word < cycleCount wordBytes offset frames) :
    wordOutput wordBytes offset tuple frames word =
      joinedWord wordBytes offset tuple frames word := by
  have hBytes : (tupleOrigins wordBytes 0 frames).map (frameByte wordBytes tuple frames) =
      tupleBytes tuple 0 frames :=
    @map_frameByte_tupleOrigins wordBytes tuple 0 frames
      (fun stream => frames[stream]?.elim 0 Frame.startOffset) fun i frame hFrame => by
        simp [hFrame]
  rw [wordOutput, outputOf, isNone_wordStart_succ hOffset hWord, joinedWord, dataWord,
    List.map_map, ← hBytes]
  congr 1
  apply List.map_congr_left
  intro byte _
  rw [Function.comp_apply, cellAt]
  dsimp only
  split
  · rfl
  · rw [List.getElem?_map, Option.map_map]
    rfl

end Pipeline

namespace Join

variable {join : Join} {table : Table}

/-- What the transitions of the machine of a description share. -/
def setting (join : Join) (inversion : Inversion) : Setting :=
  ⟨join.wordBytes, join.streams.length, inversion.lookahead, join.emptiable⟩

/-- The passes of the synthesis of a description, up to the contexts of its machine. -/
structure Passes (join : Join) (layouts : SortedSet Layout) (inversion : Inversion)
    (contexts : SortedSet Context) : Prop where
  checked : join.check = .ok ()
  enumerated : joinedLayouts join.wordBytes join.streams join.outputOffset join.maxLayouts =
    .ok layouts
  inverted : Inversion.ofLayouts join.wordBytes layouts.toList join.streams.length =
    .ok inversion
  found : inversion.contexts = .ok contexts

/-- The machine of a description handles all frames that the streams of the description may
send. -/
theorem Passes.handles {layouts : SortedSet Layout} {inversion : Inversion}
    {contexts : SortedSet Context} (h : join.Passes layouts inversion contexts)
    {frames : List Frame} (hSends : List.Forall₂ Stream.Sends join.streams frames) :
    Handles (join.setting inversion) contexts join.outputOffset frames ∧
      ∀ frame ∈ frames, frame.startOffset < join.wordBytes := by
  obtain ⟨hOffset, _, hEach⟩ := of_check_eq_ok h.checked
  have hStream : ∀ (index : Nat) frame, frames[index]? = some frame →
      ∃ stream, join.streams[index]? = some stream ∧ stream.Sends frame := by
    intro index frame hFrame
    have hBound := (List.getElem?_eq_some_iff.mp hFrame).1
    have hAt := List.getElem?_eq_getElem (hSends.length_eq ▸ hBound)
    exact ⟨_, hAt, rel_of_forall₂ hSends hAt hFrame⟩
  have hShort : ∀ context, (tupleLayout join.wordBytes join.outputOffset frames).HasContext
      context → ∃ short, tupleLayout join.wordBytes join.outputOffset short ∈ layouts.toList ∧
        (tupleLayout join.wordBytes join.outputOffset short).HasContext context := by
    intro context hContext
    obtain ⟨short, hMem, hShort⟩ :=
      exists_joinedLayouts_of_sends h.enumerated hOffset hSends hContext
    exact ⟨short, SortedSet.mem_toList.mpr hMem, hShort⟩
  refine ⟨?_, fun frame hMem => ?_⟩
  · constructor
    case offset_lt => exact hOffset
    case streams => exact hSends.length_eq
    case emptiable =>
      intro index frame hFrame hEmpty
      obtain ⟨stream, hAt, hSends⟩ := hStream index frame hFrame
      have hElement := (hEach stream (List.mem_of_getElem? hAt)).1
      show (join.streams.map Stream.canBeEmpty)[index]? = some true
      rw [List.getElem?_map, hAt, Option.map_some,
        Stream.canBeEmpty_of_sends hElement hSends hEmpty]
    case known =>
      intro context hContext
      obtain ⟨short, hMem, hShort⟩ := hShort context hContext
      exact Inversion.mem_contexts_of_tuple h.inverted h.found hOffset hMem hShort
    case reach =>
      intro context hContext source hSource
      obtain ⟨short, hMem, hShort⟩ := hShort context hContext
      exact Inversion.stage_le_lookahead h.inverted hMem hShort hSource
  · obtain ⟨index, hFrame⟩ := List.mem_iff_getElem?.mp hMem
    obtain ⟨stream, hAt, hStart, _⟩ := hStream index frame hFrame
    exact (hEach stream (List.mem_of_getElem? hAt)).2 _ hStart

/-- A synthesized machine is the machine of the contexts that the passes find. -/
theorem exists_passes_of_synthesize (h : join.synthesize = .ok table) :
    ∃ layouts inversion contexts, join.Passes layouts inversion contexts ∧
      table = .ofContexts (join.setting inversion) contexts ∧
      Sound (join.setting inversion) contexts := by
  obtain ⟨_, hCheck, h⟩ := bind_eq_ok.mp h
  obtain ⟨layouts, hLayouts, h⟩ := bind_eq_ok.mp h
  obtain ⟨inversion, hInversion, hBuild⟩ := bind_eq_ok.mp h
  have hCheck := mapError_eq_ok.mp hCheck
  obtain ⟨contexts, hContexts, rfl, hSound⟩ :=
    sound_of_build (of_check_eq_ok hCheck).2.1 (mapError_eq_ok.mp hBuild)
  exact ⟨layouts, inversion, contexts,
    ⟨hCheck, mapError_eq_ok.mp hLayouts, mapError_eq_ok.mp hInversion, hContexts⟩, rfl, hSound⟩

/-- A synthesized machine joins tuples of frames: whatever frames the streams send, of any
length, every cycle finds a transition until all words are consumed. Each tuple takes as many
cycles as its bytes span output words, at least one; the output words show the bytes of its
frames, one frame after the other and the first one at the output offset, and the last word
of the tuple is flagged as such. Between two tuples the machine is in state 0. -/
theorem cycles?_of_synthesize (h : join.synthesize = .ok table) :
    (∀ t ∈ table.items, t.outputKeep = t.outputMux.map Option.isSome) ∧
    ∀ before after : List (List Frame),
      (∀ frames ∈ before ++ after, List.Forall₂ Stream.Sends join.streams frames) →
      cycles? table (cycleTotal join.wordBytes join.outputOffset before)
          ⟨0, queuesOf join.wordBytes join.streams.length 0 (before ++ after)⟩ =
        some (joinedWords join.wordBytes join.outputOffset 0 before,
          ⟨0, queuesOf join.wordBytes join.streams.length before.length after⟩) := by
  obtain ⟨layouts, inversion, contexts, hPasses, rfl, hSound⟩ := exists_passes_of_synthesize h
  refine ⟨fun t ht => Table.outputKeep_of_mem_items ht, fun before after hSends => ?_⟩
  have hBefore : ∀ frames ∈ before,
      Handles (join.setting inversion) contexts join.outputOffset frames ∧
        ∀ frame ∈ frames, frame.startOffset < join.wordBytes :=
    fun frames hMem => hPasses.handles (hSends frames (List.mem_append_left _ hMem))
  have hAfter : ∀ frames ∈ after, frames.length = join.streams.length :=
    fun frames hMem => (hSends frames (List.mem_append_right _ hMem)).length_eq.symm
  have hRun := cycles?_queuesOf hSound hBefore hAfter 0
  rw [Nat.zero_add] at hRun
  refine hRun.trans ?_
  rw [joinedWords]
  congr 2
  apply List.flatMap_congr
  rintro ⟨frames, index⟩ hMem
  apply List.map_congr_left
  intro word hWord
  have hFrames := hBefore frames (List.mem_of_getElem? (List.mem_zipIdx_iff_getElem?.mp hMem))
  exact wordOutput_eq_joinedWord hFrames.1.offset_lt (List.mem_range.mp hWord)

/-- An optional byte in front of any number of pairs of bytes. -/
def flaggedPairs : Join :=
  ⟨2, 0, [⟨8, .ofList [0], ⟨0, some 1⟩⟩, ⟨16, .ofList [0], ⟨1, none⟩⟩], 16⟩

theorem cycles?_of_synthesize_flaggedPairs :
    ∃ table, flaggedPairs.synthesize = .ok table ∧
      cycles? table 4 ⟨0, queuesOf 2 2 0 [[⟨1, 0⟩, ⟨4, 0⟩], [⟨0, 0⟩, ⟨2, 0⟩]]⟩ =
        some ([⟨[some (some ⟨0, 0, 0⟩), some (some ⟨0, 1, 0⟩)], false⟩,
          ⟨[some (some ⟨0, 1, 1⟩), some (some ⟨0, 1, 2⟩)], false⟩,
          ⟨[some (some ⟨0, 1, 3⟩), none], true⟩,
          ⟨[some (some ⟨1, 1, 0⟩), some (some ⟨1, 1, 1⟩)], true⟩], ⟨0, [[], []]⟩) := by
  have hOk : flaggedPairs.synthesize.isOk = true := by decide +kernel
  cases hTable : flaggedPairs.synthesize with
  | error e =>
      rw [hTable] at hOk
      cases hOk
  | ok table =>
      have hSends : ∀ frames ∈ [[⟨1, 0⟩, ⟨4, 0⟩], [⟨0, 0⟩, ⟨2, 0⟩]] ++ [],
          List.Forall₂ Stream.Sends flaggedPairs.streams frames := by
        have hFlag : ∀ count ≤ 1, Stream.Sends ⟨8, .ofList [0], ⟨0, some 1⟩⟩ ⟨count, 0⟩ :=
          fun count hCount => ⟨SortedSet.mem_ofList.mpr (by simp), count,
            ⟨Nat.zero_le _, by simpa using hCount⟩, by unfold maxSize; omega, by
              simp [Stream.elementBytes]⟩
        have hPairs : ∀ count, 1 ≤ count → count ≤ maxSize →
            Stream.Sends ⟨16, .ofList [0], ⟨1, none⟩⟩ ⟨2 * count, 0⟩ :=
          fun count hCount hSize => ⟨SortedSet.mem_ofList.mpr (by simp), count,
            ⟨hCount, by simp⟩, hSize, by simp [Stream.elementBytes]⟩
        simp only [List.append_nil, List.forall_mem_cons, List.not_mem_nil, false_implies,
          implies_true, and_true]
        exact ⟨.cons (hFlag 1 (by decide)) (.cons (hPairs 2 (by decide) (by decide)) .nil),
          .cons (hFlag 0 (by decide)) (.cons (hPairs 1 (by decide) (by decide)) .nil)⟩
      exact ⟨table, rfl, (cycles?_of_synthesize hTable).2 _ [] hSends⟩

end Join

end StreamSplice
