import StreamSplice.Context
import StreamSplice.Proofs.Fallible

/-! Collection of sub-states from the uses of input bytes. -/
namespace StreamSplice

open Std

namespace SubState

theorem assign_eq_ok {s next : SubState} {outputByte : Nat} {source : Source} :
    s.assign outputByte source = .ok next ↔
      s.sources[outputByte]? = some none ∧
        next = { s with sources := s.sources.set outputByte (some source) } := by
  simp only [assign]
  split
  · next hFree => simp [hFree, eq_comm]
  · next hTaken => simpa using fun h => absurd h hTaken

theorem label_assign {s next : SubState} {outputByte : Nat} {source : Source}
    (h : s.assign outputByte source = .ok next) : next.label = s.label := by
  rw [(assign_eq_ok.mp h).2]

theorem length_sources_assign {s next : SubState} {outputByte : Nat} {source : Source}
    (h : s.assign outputByte source = .ok next) : next.sources.length = s.sources.length := by
  rw [(assign_eq_ok.mp h).2, List.length_set]

end SubState

namespace Inversion

theorem collect_eq_ok {wordBytes : Nat} {subStates next : SubStates} {use : ByteUse} :
    collect wordBytes subStates use = .ok next ↔
      ∃ s, (subStates[use.label]?.getD (.blank use.label wordBytes)).assign use.outputByte
        use.source = .ok s ∧ subStates.insert use.label s = next := by
  simp only [collect, bind_eq_ok]
  constructor
  · rintro ⟨s, hAssign, h⟩
    cases h
    exact ⟨s, hAssign, rfl⟩
  · rintro ⟨s, hAssign, rfl⟩
    exact ⟨s, hAssign, rfl⟩

section Invariant

variable {P : WordLabel → SubState → Prop} {inversion : Inversion}
  (hBlank : ∀ label, P label (.blank label inversion.wordBytes))
  (hAssign : ∀ label s next outputByte source, P label s →
    s.assign outputByte source = .ok next → P label next)

include hAssign

/-- What assigning a source keeps of a sub-state is kept by the collection of a use. -/
theorem forall_collect {wordBytes : Nat} (hBlank : ∀ label, P label (.blank label wordBytes))
    {found next : SubStates} {use : ByteUse}
    (hFound : ∀ (label : WordLabel) (s : SubState), found[label]? = some s → P label s)
    (h : collect wordBytes found use = .ok next) (label : WordLabel) (s : SubState)
    (hLookup : next[label]? = some s) : P label s := by
  obtain ⟨assigned, hAssigned, rfl⟩ := collect_eq_ok.mp h
  have hPresent : P use.label (found[use.label]?.getD (.blank use.label wordBytes)) := by
    cases hPresent : found[use.label]? with
    | none => exact hBlank use.label
    | some present => exact hFound use.label present hPresent
  rw [TreeMap.getElem?_insert] at hLookup
  split at hLookup
  · next hSame =>
      cases hLookup
      rw [← LawfulEqOrd.eq_of_compare hSame]
      exact hAssign _ _ _ _ _ hPresent hAssigned
  · exact hFound label s hLookup

include hBlank

/-- What holds of a word without sources, and is kept by assigning one, holds of every
sub-state. -/
theorem forall_subStates {subStates : SubStates} (h : inversion.subStates = .ok subStates)
    {label : WordLabel} {s : SubState} (hState : subStates[label]? = some s) : P label s :=
  foldlM_invariant
    (P := fun found : SubStates => ∀ (label : WordLabel) (s : SubState), found[label]? = some s →
      P label s)
    (fun _ _ _ hFound hCollect => forall_collect hAssign hBlank hFound hCollect) (by simp) h label
    s hState

end Invariant

/-- A collected use changes the width of no sub-state. -/
theorem length_sources_collect {wordBytes : Nat} {found next : SubStates} {use : ByteUse}
    (hFound : ∀ (label : WordLabel) (s : SubState), found[label]? = some s →
      s.sources.length = wordBytes)
    (h : collect wordBytes found use = .ok next) (label : WordLabel) (s : SubState)
    (hLookup : next[label]? = some s) : s.sources.length = wordBytes :=
  forall_collect (P := fun _ s => s.sources.length = wordBytes)
    (fun _ _ _ _ _ hWidth hAssign => (SubState.length_sources_assign hAssign).trans hWidth)
    (fun _ => List.length_replicate) hFound h label s hLookup

/-- Every sub-state has as many sources as a word has bytes. -/
theorem length_sources_of_subStates {inversion : Inversion} {subStates : SubStates}
    (h : inversion.subStates = .ok subStates) {label : WordLabel} {s : SubState}
    (hState : subStates[label]? = some s) : s.sources.length = inversion.wordBytes :=
  forall_subStates (P := fun _ s => s.sources.length = inversion.wordBytes)
    (fun _ => List.length_replicate)
    (fun _ _ _ _ _ hWidth hAssign => (SubState.length_sources_assign hAssign).trans hWidth)
    h hState

/-- Every sub-state is found under its own label. -/
theorem label_of_subStates {inversion : Inversion} {subStates : SubStates}
    (h : inversion.subStates = .ok subStates) {label : WordLabel} {s : SubState}
    (hState : subStates[label]? = some s) : s.label = label :=
  forall_subStates (P := fun label s => s.label = label) (fun _ => rfl)
    (fun _ _ _ _ _ hLabel hAssign => (SubState.label_assign hAssign).trans hLabel) h hState

/-- A context comes from a sub-state and its neighbours in the same layout. -/
theorem contexts_eq_ok {inversion : Inversion} {contexts : SortedSet Context}
    (h : inversion.contexts = .ok contexts) :
    ∃ subStates, inversion.subStates = .ok subStates ∧
      (∀ (label : WordLabel) s, subStates[label]? = some s →
        ∃ context ∈ contexts, s.context inversion.wordBytes (previous? subStates label)
          subStates[label.next]? = .ok context) ∧
      ∀ context ∈ contexts, ∃ (label : WordLabel) (s : SubState), subStates[label]? = some s ∧
        s.context inversion.wordBytes (previous? subStates label)
          subStates[label.next]? = .ok context := by
  obtain ⟨subStates, hSubStates, hCollect⟩ := bind_eq_ok.mp h
  obtain ⟨hItems, hContexts⟩ := SortedSet.collect_eq_ok hCollect
  refine ⟨subStates, hSubStates, fun label s hLookup => ?_, fun context hMem => ?_⟩
  · exact hItems (label, s) (TreeMap.mem_toList_iff_getElem?_eq_some.mpr hLookup)
  · obtain ⟨⟨label, s⟩, hItem, hContext⟩ := hContexts context hMem
    exact ⟨label, s, TreeMap.mem_toList_iff_getElem?_eq_some.mp hItem, hContext⟩

end Inversion

namespace SubState

variable {s : SubState} {wordBytes : Nat} {previous next : Option SubState} {context : Context}

/-- The state of a word is the least stream that it takes a byte from. -/
theorem state_eq_ok {state : Nat} :
    s.state = .ok state ↔
      (∃ source, some source ∈ s.sources ∧ source.stream = state) ∧
        ∀ source, some source ∈ s.sources → state ≤ source.stream := by
  have hLeast : s.state = .ok state ↔ (s.driven.map Source.stream).min? = some state := by
    rw [SubState.state]
    cases (s.driven.map Source.stream).min? <;> simp
  rw [hLeast, List.min?_eq_some_iff]
  simp [driven]

/-- A word has a context if it takes a byte from some stream, the word after it does, and its
sources are in stream order. -/
theorem context_eq_ok :
    s.context wordBytes previous next = .ok context ↔
      ∃ state nextState, s.state = .ok state ∧ next.elim (pure 0) SubState.state = .ok nextState ∧
        disorder? (next.bind (·.sources.head?.join)) 0 s.sources = none ∧
        context = ⟨state, nextState, s.sources, next.bind (·.sources.head?.join),
          previous.any (·.splitsInto s wordBytes), next.isNone⟩ := by
  rw [SubState.context, bind_eq_ok]
  simp only [bind_eq_ok]
  cases hOrder : disorder? (next.bind (·.sources.head?.join)) 0 s.sources with
  | some outputByte => simp [throw, throwThe, MonadExceptOf.throw]
  | none =>
      simp only [pure, Except.pure, Except.ok.injEq, true_and]
      constructor
      · rintro ⟨nextState, hNext, state, hState, rfl⟩
        exact ⟨state, nextState, hState, hNext, rfl⟩
      · rintro ⟨state, nextState, hState, hNext, rfl⟩
        exact ⟨nextState, hNext, state, hState, rfl⟩

end SubState

theorem Inversion.length_sources_of_contexts {inversion : Inversion}
    {contexts : SortedSet Context} (h : inversion.contexts = .ok contexts) {context : Context}
    (hMem : context ∈ contexts) : context.sources.length = inversion.wordBytes := by
  obtain ⟨subStates, hSubStates, _, hFrom⟩ := Inversion.contexts_eq_ok h
  obtain ⟨label, s, hLookup, hContext⟩ := hFrom context hMem
  obtain ⟨_, _, _, _, _, rfl⟩ := SubState.context_eq_ok.mp hContext
  exact Inversion.length_sources_of_subStates hSubStates hLookup

/-- The sources of a context are in stream order, and none comes from a stream before its
state. -/
theorem Inversion.ordered_of_contexts {inversion : Inversion} {contexts : SortedSet Context}
    (h : inversion.contexts = .ok contexts) {context : Context} (hMem : context ∈ contexts) :
    (∀ source, some source ∈ context.sources → context.state ≤ source.stream) ∧
      SubState.disorder? context.following 0 context.sources = none := by
  obtain ⟨_, _, _, hFrom⟩ := Inversion.contexts_eq_ok h
  obtain ⟨label, s, _, hContext⟩ := hFrom context hMem
  obtain ⟨_, _, hState, _, hOrder, rfl⟩ := SubState.context_eq_ok.mp hContext
  exact ⟨(SubState.state_eq_ok.mp hState).2, hOrder⟩

end StreamSplice
