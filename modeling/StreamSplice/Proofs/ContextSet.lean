import StreamSplice.Proofs.Fitting
import StreamSplice.Proofs.Disorder

/-! The contexts of a machine. The bytes of joined frames are in the order of their streams, so
the contexts of their words are found without an error; and nothing else is found. -/
namespace StreamSplice

open Layout Pipeline

/-- The sources of a word of a tuple are in stream order. -/
theorem disorder?_tupleContext {wordBytes offset word : Nat} {frames : List Frame}
    {first : Origin} :
    let context := tupleContext wordBytes offset frames word first
    SubState.disorder? context.following 0 context.sources = none := by
  rw [SubState.disorder?_eq_none_iff]
  rintro byte ⟨source, after, hSource, hAfter, hLess⟩
  obtain ⟨hByte, hData, _, _, hPresents⟩ := presents_wordSources hSource
  obtain ⟨_, _, _, hNext⟩ := (follows_tupleContext hByte hData).next after hAfter
  have hOrdered := hPresents.covers.stream_le hNext.covers (Nat.le_succ _)
  omega

namespace Inversion

variable {wordBytes streamCount : Nat} {layouts : List Layout} {inversion : Inversion}
  {subStates : SubStates}
  (h : ofLayouts wordBytes layouts streamCount = .ok inversion)
  (hTuples : ∀ layout ∈ layouts, ∃ offset frames, offset < wordBytes ∧
    layout = tupleLayout wordBytes offset frames)

include h hTuples

/-- Every sub-state of joined frames has the context of its word. -/
theorem exists_context_of_subState (hStates : inversion.subStates = .ok subStates)
    {label : WordLabel} {s : SubState} (hFound : subStates[label]? = some s) :
    ∃ layout ∈ layouts, ∃ context, layout.HasContext context ∧
      s.context inversion.wordBytes (previous? subStates label) subStates[label.next]? =
        .ok context := by
  obtain ⟨cells, hCells, _, origin, hByte⟩ := exists_word_of_subState h hStates hFound
  obtain ⟨layout, hIndex, hWord⟩ := Option.bind_eq_some_iff.mp hCells
  have hLayout := List.mem_of_getElem? hIndex
  obtain ⟨offset, frames, hOffset, rfl⟩ := hTuples layout hLayout
  have hBytes : 0 < byteTotal frames := by
    rw [tupleLayout, getElem?_words_ofData] at hWord
    split at hWord
    · cases hWord
      obtain ⟨_, _, _, hOrigin⟩ := some_mem_dataWord.mp hByte
      have := (List.getElem?_eq_some_iff.mp hOrigin).1
      rw [length_tupleOrigins] at this
      omega
    · cases hWord
  obtain ⟨context, hContext, hEq⟩ := context_of_subState h hStates hIndex
    (seamless_tupleLayout hOffset hBytes) hWord hFound
  have hHas : (tupleLayout wordBytes offset frames).HasContext context := ⟨label.word, hContext⟩
  obtain ⟨word, first, _, rfl⟩ := (hasContext_tupleLayout_iff hOffset).mp hHas
  rw [disorder?_tupleContext] at hEq
  exact ⟨_, hLayout, _, hHas, hEq⟩

/-- The contexts of inverted joins of frames are found, and no others. -/
theorem exists_contexts :
    ∃ contexts, inversion.contexts = .ok contexts ∧
      ∀ context, context ∈ contexts ↔ ∃ layout ∈ layouts, layout.HasContext context := by
  obtain ⟨subStates, hStates⟩ := exists_subStates h
  have hEach : ∀ state ∈ subStates.toList, ∃ context,
      state.2.context inversion.wordBytes (previous? subStates state.1)
        subStates[state.1.next]? = .ok context := by
    rintro ⟨label, s⟩ hMem
    obtain ⟨_, _, context, _, hContext⟩ := exists_context_of_subState h hTuples hStates
      (Std.TreeMap.mem_toList_iff_getElem?_eq_some.mp hMem)
    exact ⟨context, hContext⟩
  obtain ⟨contexts, hCollect⟩ := SortedSet.exists_collect_eq_ok hEach
  have hContexts : inversion.contexts = .ok contexts :=
    bind_eq_ok.mpr ⟨subStates, hStates, hCollect⟩
  refine ⟨contexts, hContexts, fun context => ⟨fun hMem => ?_, ?_⟩⟩
  · obtain ⟨found, hFoundStates, _, hFrom⟩ := contexts_eq_ok hContexts
    cases hStates.symm.trans hFoundStates
    obtain ⟨label, s, hFound, hContext⟩ := hFrom context hMem
    obtain ⟨layout, hLayout, context', hHas, hContext'⟩ :=
      exists_context_of_subState h hTuples hStates hFound
    cases hContext.symm.trans hContext'
    exact ⟨layout, hLayout, hHas⟩
  · rintro ⟨layout, hLayout, hHas⟩
    obtain ⟨offset, frames, hOffset, rfl⟩ := hTuples layout hLayout
    exact mem_contexts_of_tuple h hContexts hOffset hLayout hHas

end Inversion

end StreamSplice
