import StreamSplice.Proofs.SubStates
import StreamSplice.Proofs.Tuple

/-! Contexts survive inversion. An inversion records every byte of every word, so the
sub-states collected from it have the sources of the words, and the contexts found from
sub-states are those of the layouts that were inverted. -/
namespace StreamSplice

open Std Layout Pipeline

namespace Inversion

section Collection

variable {wordBytes outputByte : Nat} {label : WordLabel} {source : Source}
  {found next : SubStates} {use : ByteUse} {uses : List ByteUse}

/-- Whether a sub-state drives an output byte from a source. -/
def Drives (subStates : SubStates) (label : WordLabel) (outputByte : Nat) (source : Source) :
    Prop :=
  ∃ s, subStates[label]? = some s ∧ s.sources[outputByte]? = some (some source)

/-- Whether a use assigns a source to an output byte. -/
def Assigns (use : ByteUse) (label : WordLabel) (outputByte : Nat) (source : Source) : Prop :=
  use.label = label ∧ use.outputByte = outputByte ∧ use.source = source

/-- A collected use drives its output byte, and no other byte is affected. -/
theorem drives_collect (h : collect wordBytes found use = .ok next) :
    Drives next label outputByte source ↔
      Drives found label outputByte source ∨ Assigns use label outputByte source := by
  obtain ⟨assigned, hAssign, rfl⟩ := collect_eq_ok.mp h
  obtain ⟨hFree, rfl⟩ := SubState.assign_eq_ok.mp hAssign
  simp only [Drives, Assigns]
  by_cases hLabel : use.label = label
  · subst hLabel
    obtain ⟨hBound, _⟩ := List.getElem?_eq_some_iff.mp hFree
    by_cases hByte : use.outputByte = outputByte
    · subst hByte
      have hNone : ¬∃ s, found[use.label]? = some s ∧
          s.sources[use.outputByte]? = some (some source) := by
        rintro ⟨s, hFound, hSource⟩
        simp [hFound, hSource] at hFree
      simp [hBound, hNone]
    · cases hFound : found[use.label]? with
      | none => simp [hByte, SubState.blank, List.getElem?_replicate]
      | some s => simp [hByte]
  · have hOther : compare use.label label ≠ .eq := fun hEq =>
      hLabel (LawfulEqOrd.eq_of_compare hEq)
    simp [TreeMap.getElem?_insert, hOther, hLabel]

theorem isSome_collect (h : collect wordBytes found use = .ok next) :
    next[label]?.isSome ↔ found[label]?.isSome ∨ use.label = label := by
  obtain ⟨assigned, _, rfl⟩ := collect_eq_ok.mp h
  rw [TreeMap.getElem?_insert]
  split
  · next hEq => simp [LawfulEqOrd.eq_of_compare hEq]
  · next hOther =>
      have hLabel : use.label ≠ label := fun hEq => hOther (hEq ▸ ReflOrd.compare_self)
      simp [hLabel]

theorem drives_foldlM (h : uses.foldlM (collect wordBytes) found = .ok next) :
    Drives next label outputByte source ↔
      Drives found label outputByte source ∨ ∃ use ∈ uses, Assigns use label outputByte source := by
  induction uses generalizing found with
  | nil =>
      cases h
      simp
  | cons use uses ih =>
      rw [List.foldlM_cons] at h
      obtain ⟨middle, hHead, hTail⟩ := bind_eq_ok.mp h
      rw [ih hTail, drives_collect hHead, or_assoc, List.exists_mem_cons_iff]

theorem isSome_foldlM (h : uses.foldlM (collect wordBytes) found = .ok next) :
    next[label]?.isSome ↔ found[label]?.isSome ∨ ∃ use ∈ uses, use.label = label := by
  induction uses generalizing found with
  | nil =>
      cases h
      simp
  | cons use uses ih =>
      rw [List.foldlM_cons] at h
      obtain ⟨middle, hHead, hTail⟩ := bind_eq_ok.mp h
      rw [ih hTail, isSome_collect hHead, or_assoc, List.exists_mem_cons_iff]

end Collection

section Words

variable {wordBytes streamCount : Nat} {layouts : List Layout} {inversion : Inversion}
  {label : WordLabel} {cells : List Cell}

/-- The word that a label names. -/
def wordAt? (layouts : List Layout) (label : WordLabel) : Option (List Cell) := do
  (← layouts[label.layout]?).words[label.word]?

theorem mem_labelledWords :
    (label, cells) ∈ labelledWords layouts ↔ wordAt? layouts label = some cells := by
  simp only [labelledWords, wordAt?]
  simp only [List.mem_flatMap, List.mem_map, Prod.exists, List.mk_mem_zipIdx_iff_getElem?,
    Option.bind_eq_bind, Option.bind_eq_some_iff]
  constructor
  · rintro ⟨layout, index, hLayout, word, position, hWord, h⟩
    cases h
    exact ⟨layout, hLayout, hWord⟩
  · rintro ⟨layout, hLayout, hWord⟩
    exact ⟨layout, label.layout, hLayout, cells, label.word, hWord, rfl⟩

/-- The uses of a word that fits are those of its bytes. -/
theorem wordUses_eq_ok {uses : List ByteUse}
    (h : wordUses wordBytes streamCount label cells = .ok uses) :
    cells.length = wordBytes ∧ (∀ origin, some origin ∈ cells → origin.stream < streamCount) ∧
      ∀ use, use ∈ uses ↔ ∃ outputByte origin, cells[outputByte]? = some (some origin) ∧
        useOf label (firstWords cells) outputByte origin = use := by
  simp only [wordUses] at h
  split at h
  · cases h
  · next hLength =>
      split at h
      · cases h
      · next hStreams =>
          split at h
          · cases h
          · cases h
            refine ⟨not_not.mp hLength, fun origin hMem => ?_, fun use => ?_⟩
            · simpa using List.find?_eq_none.mp hStreams origin (mem_filterMap_id.mpr hMem)
            · simp only [List.mem_filterMap, Prod.exists, List.mk_mem_zipIdx_iff_getElem?,
                Option.map_eq_some_iff]
              constructor
              · rintro ⟨_, outputByte, hCell, origin, rfl, rfl⟩
                exact ⟨outputByte, origin, hCell, rfl⟩
              · rintro ⟨outputByte, origin, hCell, rfl⟩
                exact ⟨_, outputByte, hCell, origin, rfl, rfl⟩

/-- The words of inverted layouts fit, and the uses are those of their bytes. -/
theorem ofLayouts_eq_ok (h : ofLayouts wordBytes layouts streamCount = .ok inversion) :
    inversion.wordBytes = wordBytes ∧ inversion.streamCount = streamCount ∧
      (∀ label cells, wordAt? layouts label = some cells → cells.length = wordBytes ∧
        ∀ origin, some origin ∈ cells → origin.stream < streamCount) ∧
      ∀ use, use ∈ inversion.uses ↔ ∃ label cells outputByte origin,
        wordAt? layouts label = some cells ∧ cells[outputByte]? = some (some origin) ∧
          useOf label (firstWords cells) outputByte origin = use := by
  obtain ⟨perWord, hWords, h⟩ := bind_eq_ok.mp h
  cases h
  obtain ⟨hEach, hFrom⟩ := mem_of_mapM_eq_ok hWords
  refine ⟨rfl, rfl, fun label cells hCells => ?_, fun use => ?_⟩
  · obtain ⟨uses, _, hUses⟩ := hEach (label, cells) (mem_labelledWords.mpr hCells)
    exact ⟨(wordUses_eq_ok hUses).1, (wordUses_eq_ok hUses).2.1⟩
  · rw [SortedSet.mem_ofList, List.mem_flatten]
    constructor
    · rintro ⟨uses, hMem, hUse⟩
      obtain ⟨⟨label, cells⟩, hLabelled, hUses⟩ := hFrom uses hMem
      obtain ⟨outputByte, origin, hCell, rfl⟩ := ((wordUses_eq_ok hUses).2.2 use).mp hUse
      exact ⟨label, cells, outputByte, origin, mem_labelledWords.mp hLabelled, hCell, rfl⟩
    · rintro ⟨label, cells, outputByte, origin, hCells, hCell, rfl⟩
      obtain ⟨uses, hMem, hUses⟩ := hEach (label, cells) (mem_labelledWords.mpr hCells)
      exact ⟨uses, hMem, ((wordUses_eq_ok hUses).2.2 _).mpr ⟨outputByte, origin, hCell, rfl⟩⟩

theorem source_useOf (label : WordLabel) (cells : List Cell) (outputByte : Nat)
    (origin : Origin) :
    (useOf label (firstWords cells) outputByte origin).source = sourceIn cells origin := by
  simp only [useOf, ByteUse.source, getElem?_firstWords]
  rfl

variable {subStates : SubStates}

/-- The sub-state of a word that holds a byte has the sources of the word. -/
theorem getElem?_subStates (h : ofLayouts wordBytes layouts streamCount = .ok inversion)
    (hStates : inversion.subStates = .ok subStates) (hCells : wordAt? layouts label = some cells)
    {origin : Origin} (hByte : some origin ∈ cells) :
    ∃ s, subStates[label]? = some s ∧ s.sources = wordSources cells := by
  obtain ⟨hWidth, _, hWords, hUses⟩ := ofLayouts_eq_ok h
  obtain ⟨outputByte, hCell⟩ := List.mem_iff_getElem?.mp hByte
  have hPresent : subStates[label]?.isSome :=
    (isSome_foldlM hStates).mpr (.inr ⟨_, (hUses _).mpr ⟨label, cells, outputByte, origin, hCells,
      hCell, rfl⟩, rfl⟩)
  obtain ⟨s, hFound⟩ := Option.isSome_iff_exists.mp hPresent
  have hLength := length_sources_of_subStates hStates hFound
  rw [hWidth, ← (hWords label cells hCells).1] at hLength
  have hSource : ∀ (byte : Nat) (source : Source), s.sources[byte]? = some (some source) ↔
      ∃ origin, cells[byte]? = some (some origin) ∧ sourceIn cells origin = source := by
    intro byte source
    have hDrives : Drives subStates label byte source ↔ _ := drives_foldlM hStates
    simp only [Drives, hFound, Option.some.injEq, exists_eq_left', Assigns] at hDrives
    rw [hDrives]
    constructor
    · rintro (⟨_, h, _⟩ | ⟨use, hUse, rfl, rfl, rfl⟩)
      · simp at h
      · obtain ⟨label, cells', outputByte, origin, hCells', hCell, rfl⟩ := (hUses use).mp hUse
        cases hCells.symm.trans hCells'
        exact ⟨origin, hCell, (source_useOf ..).symm⟩
    · rintro ⟨origin, hCell, rfl⟩
      exact .inr ⟨_, (hUses _).mpr ⟨label, cells, byte, origin, hCells, hCell, rfl⟩, rfl, rfl,
        source_useOf ..⟩
  refine ⟨s, hFound, List.ext_getElem (by simpa [wordSources] using hLength) fun byte hs _ => ?_⟩
  have hBound : byte < cells.length := by omega
  simp only [wordSources, List.getElem_map]
  apply Option.ext
  intro source
  have hByte := hSource byte source
  rw [List.getElem?_eq_getElem hs, List.getElem?_eq_getElem hBound, Option.some.injEq] at hByte
  rw [hByte, Option.map_eq_some_iff]
  simp only [Option.some.injEq]

/-- There is no sub-state without a word. -/
theorem getElem?_subStates_eq_none (h : ofLayouts wordBytes layouts streamCount = .ok inversion)
    (hStates : inversion.subStates = .ok subStates) (hCells : wordAt? layouts label = none) :
    subStates[label]? = none := by
  obtain ⟨_, _, _, hUses⟩ := ofLayouts_eq_ok h
  rw [← Option.not_isSome_iff_eq_none, isSome_foldlM hStates]
  rintro (h | ⟨use, hUse, rfl⟩)
  · simp at h
  · obtain ⟨label, cells, outputByte, origin, hCells', _, rfl⟩ := (hUses use).mp hUse
    cases hCells.symm.trans hCells'

/-- What the words of a layout have to be like for its contexts to survive inversion: each
of them holds a byte, and bytes on either side of a word boundary that look adjacent within
the words of their stream are adjacent. -/
structure Seamless (wordBytes : Nat) (layout : Layout) : Prop where
  full : ∀ cells ∈ layout.words, ∃ origin, some origin ∈ cells
  adjacent : ∀ word previous cells, layout.words[word]? = some previous →
    layout.words[word + 1]? = some cells → ∀ last first, previous.getLast?.join = some last →
    cells.head?.join = some first → last.precedes first =
      (last.byte ≠ wordBytes - 1 && first.stream == last.stream && first.byte == last.byte + 1)

/-- The words of a tuple that has bytes are seamless. -/
theorem seamless_tupleLayout {offset : Nat} (hOffset : offset < wordBytes) {frames : List Frame}
    (hBytes : 0 < byteTotal frames) : Seamless wordBytes (tupleLayout wordBytes offset frames) where
  full := by
    intro cells hMem
    obtain ⟨word, hWord⟩ := List.mem_iff_getElem?.mp hMem
    rw [tupleLayout, getElem?_words_ofData] at hWord
    split at hWord
    · next hBound =>
        cases hWord
        rw [lt_wordsSpanned_iff (by omega), length_tupleOrigins] at hBound
        have hIndex : wordStart wordBytes offset word < byteTotal frames := by
          simp only [wordStart]
          omega
        rw [← length_tupleOrigins wordBytes 0] at hIndex
        exact ⟨_, first_mem_dataWord hOffset (List.getElem?_eq_getElem hIndex)⟩
    · cases hWord
  adjacent := by
    intro word previous cells hPrevious hCells last first hLast hFirst
    rw [tupleLayout, getElem?_words_ofData] at hPrevious hCells
    split at hPrevious
    · cases hPrevious
      split at hCells
      · cases hCells
        have hStart : offset < (word + 1) * wordBytes :=
          Nat.lt_of_lt_of_le hOffset (Nat.le_mul_of_pos_left _ (by omega))
        rw [getLast?_dataWord hOffset, Option.join_some] at hLast
        rw [head?_dataWord (by omega) (by omega), Option.join_some] at hFirst
        apply precedes_of_successive (by omega) hLast
        rw [← hFirst]
        congr 1
        simp only [wordStart]
        omega
      · cases hCells
    · cases hPrevious

theorem state_of_sources {s : SubState} {state : Nat} (hSources : s.sources = wordSources cells)
    (hState : leastStream? cells = some state) : s.state = .ok state := by
  have hStreams : s.driven.map Source.stream = (cells.filterMap id).map Origin.stream := by
    rw [SubState.driven, hSources, wordSources, List.filterMap_map, List.map_filterMap,
      List.map_filterMap]
    apply List.filterMap_congr
    intro cell _
    cases cell <;> rfl
  rw [leastStream?] at hState
  rw [SubState.state, hStreams, hState]

theorem splitsInto_of_sources {s next : SubState} {following : List Cell}
    (hSources : s.sources = wordSources cells) (hNext : next.sources = wordSources following)
    (hAdjacent : ∀ last first, cells.getLast?.join = some last →
      following.head?.join = some first → last.precedes first =
        (last.byte ≠ wordBytes - 1 && first.stream == last.stream && first.byte == last.byte + 1)) :
    s.splitsInto next wordBytes = resumes cells following := by
  have hLast : s.sources.getLast?.join = cells.getLast?.join.map (sourceIn cells) := by
    rw [hSources, wordSources, List.getLast?_map]
    rcases cells.getLast? with _ | _ | _ <;> rfl
  have hFirst : next.sources.head?.join = following.head?.join.map (sourceIn following) := by
    rw [hNext, wordSources, List.head?_map]
    rcases following.head? with _ | _ | _ <;> rfl
  rw [SubState.splitsInto, resumes, hLast, hFirst]
  cases hl : cells.getLast?.join with
  | none => rfl
  | some last =>
      cases hf : following.head?.join with
      | none => rfl
      | some first => exact (hAdjacent last first hl hf).symm

section SeamlessLayouts

variable {index word : Nat} {layout : Layout}
  (h : ofLayouts wordBytes layouts streamCount = .ok inversion)
  (hStates : inversion.subStates = .ok subStates) (hIndex : layouts[index]? = some layout)
  (hSeamless : Seamless wordBytes layout)

omit h hStates hSeamless in
include hIndex in
theorem wordAt?_of_layout : wordAt? layouts ⟨index, word⟩ = layout.words[word]? := by
  simp [wordAt?, hIndex]

include h hStates hIndex hSeamless

/-- Every word of a seamless layout has a sub-state. -/
theorem exists_subState (hCells : layout.words[word]? = some cells) :
    ∃ s, subStates[(⟨index, word⟩ : WordLabel)]? = some s ∧ s.sources = wordSources cells := by
  obtain ⟨origin, hByte⟩ := hSeamless.full cells (List.mem_of_getElem? hCells)
  exact getElem?_subStates h hStates ((wordAt?_of_layout hIndex).trans hCells) hByte

/-- A sub-state resumes the one before it exactly if its word resumes the word before it. -/
theorem any_splitsInto_previous? {s : SubState} (hCells : layout.words[word]? = some cells)
    (hSources : s.sources = wordSources cells) :
    (previous? subStates ⟨index, word⟩).any (·.splitsInto s wordBytes) =
      (layout.wordBefore? word).any fun previous => resumes previous cells := by
  cases word with
  | zero => rfl
  | succ word =>
      have hBound : word < layout.words.length := by
        have := (List.getElem?_eq_some_iff.mp hCells).1
        omega
      have hPrevious := List.getElem?_eq_getElem hBound
      obtain ⟨p, hFound, hPreviousSources⟩ := exists_subState h hStates hIndex hSeamless hPrevious
      rw [previous?, wordBefore?, hPrevious, Option.any_some]
      simp only [hFound, Option.any_some]
      exact splitsInto_of_sources hPreviousSources hSources
        (hSeamless.adjacent word _ cells hPrevious hCells)

/-- The sub-state of a word has the context of the word, unless its bytes are out of order. -/
theorem context_of_subState {s : SubState} (hCells : layout.words[word]? = some cells)
    (hFound : subStates[(⟨index, word⟩ : WordLabel)]? = some s) :
    ∃ context, layout.contextAt? word = some context ∧
      s.context inversion.wordBytes (previous? subStates ⟨index, word⟩)
          subStates[(⟨index, word⟩ : WordLabel).next]? =
        match SubState.disorder? context.following 0 context.sources with
        | some outputByte => .error (.streamOrder s.label outputByte)
        | none => .ok context := by
  obtain ⟨s', hFound', hSources⟩ := exists_subState h hStates hIndex hSeamless hCells
  cases hFound.symm.trans hFound'
  obtain ⟨origin, hByte⟩ := hSeamless.full cells (List.mem_of_getElem? hCells)
  obtain ⟨state, hState⟩ := exists_leastStream? hByte
  rw [contextAt?, hCells]
  simp only [Option.bind_eq_bind, Option.bind_some, hState, Option.pure_def, Option.some.injEq,
    exists_eq_left', SubState.context, state_of_sources hSources hState]
  rw [hSources, (ofLayouts_eq_ok h).1, WordLabel.next,
    any_splitsInto_previous? h hStates hIndex hSeamless hCells hSources]
  cases hNext : layout.words[word + 1]? with
  | none =>
      rw [getElem?_subStates_eq_none h hStates ((wordAt?_of_layout hIndex).trans hNext)]
      rfl
  | some following =>
      obtain ⟨next, hFoundNext, hNextSources⟩ := exists_subState h hStates hIndex hSeamless hNext
      obtain ⟨origin, hByte⟩ := hSeamless.full following (List.mem_of_getElem? hNext)
      obtain ⟨nextState, hNextState⟩ := exists_leastStream? hByte
      simp only [hFoundNext, Option.elim_some, state_of_sources hNextSources hNextState,
        Option.bind_some, hNextSources, hNextState]
      rfl

/-- The contexts of an inverted layout are among those found from the sub-states. -/
theorem mem_contexts_of_getElem? {contexts : SortedSet Context}
    (hContexts : inversion.contexts = .ok contexts) {context : Context}
    (hContext : layout.HasContext context) : context ∈ contexts := by
  obtain ⟨found, hFoundStates, hEach, _⟩ := contexts_eq_ok hContexts
  cases hStates.symm.trans hFoundStates
  obtain ⟨word, hContext⟩ := hContext
  obtain ⟨cells, hCells, _⟩ := Option.bind_eq_some_iff.mp hContext
  obtain ⟨s, hFound, _⟩ := exists_subState h hStates hIndex hSeamless hCells
  obtain ⟨found, hMem, hEq⟩ := hEach _ s hFound
  obtain ⟨context', hContext', hEq'⟩ := context_of_subState h hStates hIndex hSeamless hCells hFound
  cases hContext.symm.trans hContext'
  rw [hEq'] at hEq
  split at hEq
  · cases hEq
  · cases hEq
    exact hMem

end SeamlessLayouts

/-- There is a register for the byte of every use. -/
theorem exists_lookahead_of_use {use : ByteUse} (hUse : use ∈ inversion.uses)
    (hStream : use.stream < inversion.streamCount) :
    ∃ l, inversion.lookahead[use.stream]? = some l ∧ use.stage ≤ l := by
  have hStage : use.stage ∈
      (inversion.uses.toList.filter (·.stream == use.stream)).map ByteUse.stage :=
    List.mem_map_of_mem (List.mem_filter.mpr ⟨hUse, beq_self_eq_true _⟩)
  obtain ⟨greatest, hGreatest⟩ := Option.isSome_iff_exists.mp
    (List.isSome_max?_of_ne_nil (List.ne_nil_of_mem hStage))
  refine ⟨greatest, ?_, (List.max?_eq_some_iff.mp hGreatest).2 _ hStage⟩
  rw [lookahead_eq, List.getElem?_map, List.getElem?_range hStream, Option.map_some, hGreatest,
    Option.getD_some]

/-- Every source of an inverted layout is within the registers of its stream. -/
theorem stage_le_lookahead (h : ofLayouts wordBytes layouts streamCount = .ok inversion)
    {layout : Layout} (hLayout : layout ∈ layouts) {context : Context}
    (hContext : layout.HasContext context) {source : Source}
    (hSource : some source ∈ context.sources) :
    ∃ l, inversion.lookahead[source.stream]? = some l ∧ source.stage ≤ l := by
  obtain ⟨_, hCount, hWords, hUses⟩ := ofLayouts_eq_ok h
  obtain ⟨index, hIndex⟩ := List.mem_iff_getElem?.mp hLayout
  obtain ⟨word, hContext⟩ := hContext
  obtain ⟨cells, hCells, hContext⟩ := Option.bind_eq_some_iff.mp hContext
  obtain ⟨state, hState, hContext⟩ := Option.bind_eq_some_iff.mp hContext
  cases hContext
  have hWordAt : wordAt? layouts ⟨index, word⟩ = some cells :=
    (wordAt?_of_layout hIndex).trans hCells
  obtain ⟨cell, hCell, hOrigin⟩ := List.mem_map.mp hSource
  obtain ⟨origin, rfl, rfl⟩ := Option.map_eq_some_iff.mp hOrigin
  obtain ⟨outputByte, hByte⟩ := List.mem_iff_getElem?.mp hCell
  have hUse := (hUses _).mpr ⟨_, cells, outputByte, origin, hWordAt, hByte, rfl⟩
  rw [← source_useOf ⟨index, word⟩ cells outputByte origin]
  exact exists_lookahead_of_use hUse (hCount ▸ (hWords _ cells hWordAt).2 origin hCell)

/-- The contexts of an inverted tuple are among those found from the sub-states. -/
theorem mem_contexts_of_tuple (h : ofLayouts wordBytes layouts streamCount = .ok inversion)
    {contexts : SortedSet Context} (hContexts : inversion.contexts = .ok contexts) {offset : Nat}
    (hOffset : offset < wordBytes) {frames : List Frame}
    (hLayout : tupleLayout wordBytes offset frames ∈ layouts) {context : Context}
    (hContext : (tupleLayout wordBytes offset frames).HasContext context) : context ∈ contexts := by
  obtain ⟨index, hIndex⟩ := List.mem_iff_getElem?.mp hLayout
  obtain ⟨subStates, hStates, _⟩ := contexts_eq_ok hContexts
  refine mem_contexts_of_getElem? h hStates hIndex (seamless_tupleLayout hOffset ?_) hContexts
    hContext
  obtain ⟨word, first, hFirst, _⟩ := (hasContext_tupleLayout_iff hOffset).mp hContext
  have hBound := (List.getElem?_eq_some_iff.mp hFirst).1
  rw [length_tupleOrigins] at hBound
  omega

end Words

end Inversion

end StreamSplice
