import StreamSplice.Proofs.ContextSet
import StreamSplice.Proofs.EndToEnd

/-! Machines are made of what occurs. Every context that is found from a description is that of
a word of frames which the streams may send, and the machine handles these frames: what holds
of the words of tuples holds of all transitions of the machine. Among others, each of them leads
to a state that has transitions. -/
namespace StreamSplice

open Layout Pipeline

namespace Pipeline

/-- A context is that of a word of a tuple of frames which a machine handles, given the first
byte of the word. -/
structure Occurs (setting : Setting) (contexts : SortedSet Context) (offset : Nat)
    (context : Context) (frames : List Frame) (word : Nat) (first : Origin) : Prop where
  handles : Handles setting contexts offset frames
  starts : ∀ frame ∈ frames, frame.startOffset < setting.wordBytes
  begins : (tupleOrigins setting.wordBytes 0 frames)[wordStart setting.wordBytes offset
    word]? = some first
  context_eq : tupleContext setting.wordBytes offset frames word first = context

/-- Every context of a machine occurs. -/
def Grounded (setting : Setting) (contexts : SortedSet Context) (offset : Nat) : Prop :=
  ∀ context ∈ contexts, ∃ frames word first, Occurs setting contexts offset context frames word
    first

section Machine

variable {setting : Setting} {contexts : SortedSet Context} {offset word : Nat}
  {context : Context} {frames : List Frame} {first : Origin} {t : Transition}

/-- A machine that handles frames has transitions in the state that it starts in. -/
theorem exists_mem_transitions_zero (hSound : Sound setting contexts)
    (hHandles : Handles setting contexts offset frames) :
    ∃ t, t ∈ (Table.ofContexts setting contexts).transitions 0 := by
  rcases Nat.eq_zero_or_pos (byteTotal frames) with hEmpty | hBytes
  · exact ⟨_, allEmpty_mem_transitions hSound hHandles hEmpty⟩
  · have hStart : wordStart setting.wordBytes offset 0 = 0 :=
      (wordStart_eq_zero hHandles.offset_lt).mpr rfl
    have hFirst : (tupleOrigins setting.wordBytes 0 frames)[wordStart setting.wordBytes offset
        0]? = some _ := List.getElem?_eq_getElem (by rwa [hStart, length_tupleOrigins])
    have hMem := mem_transitions_wordTransition hSound hHandles hFirst
    rw [stateBefore, if_pos rfl] at hMem
    exact ⟨_, hMem⟩

/-- The transition of a word leads to a state that has transitions: that of the next word, or
that of the first one if there is no next word. -/
theorem Occurs.exists_mem_transitions (hSound : Sound setting contexts)
    (h : Occurs setting contexts offset context frames word first) :
    ∃ next, next ∈ (Table.ofContexts setting contexts).transitions context.nextState := by
  rw [← h.context_eq]
  show ∃ next, next ∈ (Table.ofContexts setting contexts).transitions
    (((tupleOrigins setting.wordBytes 0 frames)[wordStart setting.wordBytes offset
      (word + 1)]?.map Origin.stream).getD 0)
  cases hNext : (tupleOrigins setting.wordBytes 0 frames)[wordStart setting.wordBytes offset
      (word + 1)]? with
  | some following =>
      have hMem := mem_transitions_wordTransition hSound h.handles hNext
      rw [stateBefore, if_neg (Nat.succ_ne_zero word), hNext] at hMem
      exact ⟨_, hMem⟩
  | none => exact exists_mem_transitions_zero hSound h.handles

/-- A transition of a machine is that of a context, or the copy of one that skips the streams
before its state, or, if every stream may be empty, that of empty frames only. -/
theorem of_mem_items (ht : t ∈ (Table.ofContexts setting contexts).items) :
    (∃ context ∈ contexts, ∃ state, ∃ leading ≤ context.state,
      setting.enter context state leading = t) ∨
      setting.emptyPrefix = setting.streamCount ∧ setting.allEmpty = t := by
  obtain ⟨state, ht⟩ := Table.mem_items.mp ht
  obtain ⟨_, ht⟩ := Table.mem_transitions_ofContexts.mp ht
  rcases Setting.of_mem_stateTransitions ht with
    ⟨hOwn, _⟩ | ⟨_, own, hOwn, rfl⟩ | ⟨_, hAll, rfl⟩
  · obtain ⟨context, hContext, rfl⟩ := List.mem_map.mp hOwn
    exact .inl ⟨context, hContext, context.state, 0, Nat.zero_le _, setting.enter_own context⟩
  · obtain ⟨context, hContext, rfl⟩ := List.mem_map.mp hOwn
    exact .inl ⟨context, hContext, 0, context.state, Nat.le_refl _, setting.enter_start context⟩
  · exact .inr ⟨hAll, rfl⟩

/-- Every transition of a machine leads to a state that has transitions. -/
theorem exists_mem_transitions_nextState (hSound : Sound setting contexts)
    (hGrounded : Grounded setting contexts offset)
    (ht : t ∈ (Table.ofContexts setting contexts).items) :
    ∃ next, next ∈ (Table.ofContexts setting contexts).transitions t.nextState := by
  rcases of_mem_items ht with ⟨context, hContext, state, leading, _, rfl⟩ | ⟨_, rfl⟩
  · obtain ⟨frames, word, first, hOccurs⟩ := hGrounded context hContext
    rw [Setting.nextState_enter]
    exact hOccurs.exists_mem_transitions hSound
  · obtain ⟨state, ht⟩ := Table.mem_items.mp ht
    have hEffect := setting.effect_allEmpty
    simp only [Transition.effect, Prod.mk.injEq] at hEffect
    have hState := Setting.state_of_mem_stateTransitions
      (Table.mem_transitions_ofContexts.mp ht).2
    rw [hEffect.2.1]
    rw [hEffect.1] at hState
    exact ⟨_, hState ▸ ht⟩

/-- A machine has no transition that the check of liveness refuses. -/
theorem requireLive_eq_ok (hSound : Sound setting contexts)
    (hGrounded : Grounded setting contexts offset) :
    (Table.ofContexts setting contexts).requireLive = .ok () := by
  rw [Table.requireLive, List.find?_eq_none.mpr]
  intro t ht hDead
  obtain ⟨next, hNext⟩ := exists_mem_transitions_nextState hSound hGrounded ht
  rw [List.isEmpty_iff.mp hDead] at hNext
  cases hNext

end Machine

end Pipeline

namespace Join

variable {join : Join} {layouts : SortedSet Layout} {inversion : Inversion}
  {contexts : SortedSet Context}

section Inverted

variable (hLayouts : joinedLayouts join.wordBytes join.streams join.outputOffset join.maxLayouts =
  .ok layouts)

include hLayouts

/-- The layouts of a description can be inverted. -/
theorem exists_inversion : ∃ inversion,
    Inversion.ofLayouts join.wordBytes layouts.toList join.streams.length = .ok inversion := by
  refine Inversion.exists_ofLayouts fun layout hLayout cells hCells => ?_
  obtain ⟨_, frames, hStreams, rfl⟩ :=
    exists_tuple_of_mem_joinedLayouts hLayouts (SortedSet.mem_toList.mp hLayout)
  refine ⟨length_of_mem_cut hCells, fun origin hMem => ?_⟩
  have hData : origin ∈ (tupleLayout join.wordBytes join.outputOffset frames).data :=
    List.mem_filterMap.mpr ⟨_, List.mem_flatten.mpr ⟨cells, hCells, hMem⟩, rfl⟩
  rw [tupleLayout, data_ofData (by omega)] at hData
  obtain ⟨index, hIndex⟩ := List.mem_iff_getElem?.mp hData
  obtain ⟨stream, frame, hFrame, _, _, rfl⟩ := getElem?_tupleOrigins.mp hIndex
  rw [← hStreams, originAt, Nat.zero_add]
  exact (List.getElem?_eq_some_iff.mp hFrame).1

/-- The contexts of the layouts of a description are found, and no others. -/
theorem exists_contexts
    (hInversion : Inversion.ofLayouts join.wordBytes layouts.toList join.streams.length =
      .ok inversion) :
    ∃ contexts, inversion.contexts = .ok contexts ∧
      ∀ context, context ∈ contexts ↔ ∃ layout ∈ layouts, layout.HasContext context := by
  refine Inversion.exists_contexts hInversion fun layout hLayout => ?_
  obtain ⟨hOffset, frames, _, rfl⟩ :=
    exists_tuple_of_mem_joinedLayouts hLayouts (SortedSet.mem_toList.mp hLayout)
  exact ⟨_, frames, hOffset, rfl⟩

end Inverted

/-- The contexts of the machine of a description all occur. -/
theorem Passes.grounded (h : join.Passes layouts inversion contexts) :
    Grounded (join.setting inversion) contexts join.outputOffset := by
  intro context hMem
  obtain ⟨found, hFound, hContexts⟩ := exists_contexts h.enumerated h.inverted
  cases h.found.symm.trans hFound
  obtain ⟨frames, joined, hSends, hJoin, hHas⟩ :=
    (hasContext_joinedLayouts_iff h.enumerated context).mp ((hContexts context).mp hMem)
  obtain ⟨hOffset, rfl⟩ := hJoin.eq_tupleLayout
  obtain ⟨word, first, hFirst, rfl⟩ := (hasContext_tupleLayout_iff hOffset).mp hHas
  obtain ⟨hHandles, hStarts⟩ := h.handles hSends
  exact ⟨frames, word, first, hHandles, hStarts, hFirst, rfl⟩

end Join

end StreamSplice
