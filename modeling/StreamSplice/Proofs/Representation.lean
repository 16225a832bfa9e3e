import Mathlib.Data.List.Induction
import StreamSplice.Proofs.Recovering
import StreamSplice.Proofs.Walking
import StreamSplice.Table.Arena

/-! The representation of a built machine. All transitions fit the registers that the machine has,
select bytes of these registers and lead to a state that can be left. Kept in one list with a range
for each state, they are the transitions of the states again. -/
namespace StreamSplice

open Std

namespace Arena

variable {states : List (SortedSet Transition)} {set : SortedSet Transition}

theorem ofStates_append : ofStates (states ++ [set]) = (ofStates states).addState set := by
  rw [ofStates, List.foldl_append]
  rfl

theorem items_ofStates (states : List (SortedSet Transition)) :
    (ofStates states).items = states.flatMap SortedSet.toList := by
  induction states using List.reverseRecOn with
  | nil => rfl
  | append_singleton states set ih =>
      rw [ofStates_append, addState, ih, List.flatMap_append, List.flatMap_singleton]

theorem length_ranges_ofStates (states : List (SortedSet Transition)) :
    (ofStates states).ranges.length = states.length := by
  induction states using List.reverseRecOn with
  | nil => rfl
  | append_singleton states set ih => simp [ofStates_append, addState, ih]

/-- A state that is added leaves the ranges alone that end before it. -/
theorem slice_addState (arena : Arena) {range : Nat × Nat} (h : range.2 ≤ arena.items.length) :
    (arena.addState set).slice range = arena.slice range := by
  have hLonger : range.2 ≤ (arena.items ++ set.toList).length := by
    rw [List.length_append]
    exact Nat.le_add_right_of_le h
  simp only [slice, addState, h, hLonger, and_true, List.take_append_of_le_length h]

/-- The range of the state that is added holds its transitions. -/
theorem slice_addState_added (arena : Arena) :
    (arena.addState set).slice (arena.items.length, (arena.items ++ set.toList).length) =
      set.toList := by
  simp [slice, addState, List.take_of_length_le]

/-- The range of a state holds the transitions of the state, and ends within the list. -/
theorem slice_ofStates {state : Nat} {range : Nat × Nat}
    (h : (ofStates states).ranges[state]? = some range) :
    range.2 ≤ (ofStates states).items.length ∧
      states[state]?.map SortedSet.toList = some ((ofStates states).slice range) := by
  induction states using List.reverseRecOn with
  | nil => cases h
  | append_singleton states set ih =>
      rw [ofStates_append] at h ⊢
      simp only [addState, List.getElem?_append, length_ranges_ofStates] at h
      split at h
      · next hEarlier =>
          obtain ⟨hEnd, hSlice⟩ := ih h
          rw [slice_addState _ hEnd, List.getElem?_append_left hEarlier]
          refine ⟨?_, hSlice⟩
          simp only [addState, List.length_append]
          exact Nat.le_add_right_of_le hEnd
      · next hLater =>
          rw [List.getElem?_singleton, Option.ite_none_right_eq_some] at h
          obtain ⟨hIndex, h⟩ := h
          cases h
          obtain rfl : state = states.length := by omega
          rw [slice_addState_added]
          exact ⟨Nat.le_refl _, by simp⟩

/-- A state is found by its range. -/
theorem transitions_ofStates (states : List (SortedSet Transition)) (state : Nat) :
    (ofStates states).transitions state = (states[state]?.map SortedSet.toList).getD [] := by
  rw [transitions]
  cases hRange : (ofStates states).ranges[state]? with
  | none =>
      rw [List.getElem?_eq_none_iff, length_ranges_ofStates] at hRange
      rw [List.getElem?_eq_none hRange]
      rfl
  | some range =>
      rw [(slice_ofStates hRange).2]
      rfl

end Arena

namespace Inversion

variable {inversion : Inversion}

/-- Whether every use is of a byte of the words of the streams. Uses that are kept by stream and
byte have no place for others. -/
def Inside (inversion : Inversion) : Prop :=
  ∀ use ∈ inversion.uses, use.stream < inversion.streamCount ∧ use.byte < inversion.wordBytes

/-- Layouts of bytes inside their words have uses of such bytes only. -/
theorem inside_of_ofLayouts {wordBytes streamCount : Nat} {layouts : List Layout}
    (h : ofLayouts wordBytes layouts streamCount = .ok inversion)
    (hBytes : ∀ layout ∈ layouts, ∀ origin ∈ layout.data, origin.byte < wordBytes) :
    inversion.Inside := by
  obtain ⟨hWidth, hCount, hWords, hUses⟩ := ofLayouts_eq_ok h
  intro use hUse
  obtain ⟨label, cells, outputByte, origin, hCells, hCell, rfl⟩ := (hUses use).mp hUse
  have hMem := List.mem_of_getElem? hCell
  obtain ⟨layout, hLayout, hData⟩ := exists_mem_data hCells hMem
  rw [hWidth, hCount]
  exact ⟨(hWords label cells hCells).2 origin hMem, hBytes layout hLayout origin hData⟩

/-- The sources of a context come from uses. -/
theorem exists_use_of_contexts {contexts : SortedSet Context}
    (h : inversion.contexts = .ok contexts) {context : Context} (hMem : context ∈ contexts)
    {source : Source} (hSource : some source ∈ context.sources) :
    ∃ use ∈ inversion.uses, use.source = source := by
  obtain ⟨subStates, hSubStates, _, hFrom⟩ := contexts_eq_ok h
  obtain ⟨label, s, hLookup, hContext⟩ := hFrom context hMem
  obtain ⟨_, _, _, _, _, rfl⟩ := SubState.context_eq_ok.mp hContext
  obtain ⟨outputByte, hAt⟩ := List.mem_iff_getElem?.mp hSource
  have hDrives : Drives subStates label outputByte source := ⟨s, hLookup, hAt⟩
  rcases (drives_foldlM hSubStates).mp hDrives with ⟨_, hNone, _⟩ | ⟨use, hUse, _, _, hEq⟩
  · simp at hNone
  · exact ⟨use, hUse, hEq⟩

end Inversion

namespace Table

variable {wordBytes streamCount : Nat} {inversion : Inversion} {emptiable : List Bool}
  {table : Table}

theorem closed_of_build (h : build wordBytes streamCount inversion emptiable = .ok table) :
    table.Closed := by
  obtain ⟨hStreams, hEmptiable, hWidth, contexts, hContexts, _, _, _⟩ := build_eq_ok h
  rw [build_eq hStreams hEmptiable hWidth hContexts] at h
  obtain ⟨_, _, h⟩ := bind_eq_ok.mp h
  obtain ⟨_, hLive, h⟩ := bind_eq_ok.mp h
  cases h
  intro t ht hEmpty
  rw [requireLive] at hLive
  split at hLive
  · cases hLive
  · next hNone => exact List.find?_eq_none.mp hNone t ht (List.isEmpty_iff.mpr hEmpty)

theorem transitions_of_stateCount_le {state : Nat} (h : table.stateCount ≤ state) :
    table.transitions state = [] := by
  rw [transitions, List.getElem?_eq_none h]

theorem transitions_eq_getD (table : Table) (state : Nat) :
    table.transitions state = (table.states[state]?.map SortedSet.toList).getD [] := by
  rw [transitions]
  cases table.states[state]? <;> rfl

/-- The transitions of the states, one state after the other, are all there are. -/
theorem flatMap_transitions (table : Table) :
    (List.range table.stateCount).flatMap table.transitions = table.items := by
  rw [funext table.transitions_eq_getD, stateCount, items]
  induction table.states with
  | nil => rfl
  | cons set rest ih =>
      rw [List.length_cons, List.range_succ_eq_map, List.flatMap_cons, List.flatMap_cons,
        List.flatMap_map, ← ih]
      rfl

/-- A table whose parts fit together: its states share out its transitions, which all guard and
mask the same registers, select bytes of these registers and lead to a state that has
transitions. -/
structure Coherent (table : Table) (wordBytes streamCount : Nat) : Prop where
  wordBytes_eq : table.wordBytes = wordBytes
  stateCount_eq : table.stateCount = streamCount
  length_lookahead : table.lookahead.length = streamCount
  flatMap_eq : (List.range table.stateCount).flatMap table.transitions = table.items
  ascending : ∀ state, (table.transitions state).Pairwise fun a b => compare a b = .lt
  distinct : ∀ state, (table.transitions state).Nodup
  state_eq : ∀ state, ∀ t ∈ table.transitions state, t.state = state
  unknown : ∀ state, table.stateCount ≤ state → table.transitions state = []
  shaped : ∀ t ∈ table.items, t.Shaped wordBytes table.lookahead
  selects : ∀ t ∈ table.items, ∀ s, some s ∈ t.outputMux →
    s.stream < streamCount ∧ s.byte < wordBytes ∧
      ∃ l, table.lookahead[s.stream]? = some l ∧ s.stage ≤ l
  leads : ∀ t ∈ table.items,
    t.nextState < table.stateCount ∧ table.transitions t.nextState ≠ []

/-- What a transition selects is a byte of a register. -/
theorem selects_of_mem_items {contexts : SortedSet Context} (hInside : inversion.Inside)
    (hContexts : inversion.contexts = .ok contexts) {t : Transition}
    (ht : t ∈ (ofContexts ⟨wordBytes, streamCount, inversion.lookahead, emptiable⟩ contexts).items)
    {s : Selection} (hSelected : some s ∈ t.outputMux) :
    s.stream < inversion.streamCount ∧ s.byte < inversion.wordBytes ∧
      ∃ l, inversion.lookahead[s.stream]? = some l ∧ s.stage ≤ l := by
  rcases Pipeline.of_mem_items ht with ⟨context, hContext, state, leading, _, rfl⟩ | ⟨_, rfl⟩
  · rw [Setting.outputMux_enter, List.mem_map] at hSelected
    obtain ⟨cell, hCell, hSource⟩ := hSelected
    obtain ⟨source, rfl, rfl⟩ := Option.map_eq_some_iff.mp hSource
    obtain ⟨use, hUse, rfl⟩ := Inversion.exists_use_of_contexts hContexts hContext hCell
    obtain ⟨hStream, hByte⟩ := hInside use hUse
    exact ⟨hStream, hByte, Inversion.exists_lookahead_of_use hUse hStream⟩
  · have hEffect := Setting.effect_allEmpty
      ⟨wordBytes, streamCount, inversion.lookahead, emptiable⟩
    simp only [Transition.effect, Prod.mk.injEq] at hEffect
    rw [hEffect.2.2.2.1] at hSelected
    cases List.eq_of_mem_replicate hSelected

/-- The parts of a machine that is built fit together, and one list with a range for each state
holds its transitions as well: state by state, and all of them. -/
theorem coherent_of_build (h : build wordBytes streamCount inversion emptiable = .ok table)
    (hInside : inversion.Inside) :
    table.Coherent wordBytes streamCount ∧ (Arena.ofStates table.states).items = table.items ∧
      ∀ state, (Arena.ofStates table.states).transitions state = table.transitions state := by
  have hClosed := closed_of_build h
  obtain ⟨hStreams, _, hWidth, contexts, hContexts, rfl, hUniform, _⟩ := build_eq_ok h
  refine ⟨{
    wordBytes_eq := rfl
    stateCount_eq := by simp [stateCount, ofContexts]
    length_lookahead := by simp [ofContexts, Inversion.lookahead, hStreams]
    flatMap_eq := flatMap_transitions _
    ascending := ascending_transitions _
    distinct := fun state => (ascending_transitions _ state).imp ne_of_lt
    state_eq := fun state t ht =>
      Setting.state_of_mem_stateTransitions (mem_transitions_ofContexts.mp ht).2
    unknown := fun state => transitions_of_stateCount_le
    shaped := ?shaped
    selects := fun t ht s hSelected =>
      hStreams ▸ hWidth ▸ selects_of_mem_items hInside hContexts ht hSelected
    leads := ?leads }, Arena.items_ofStates _, fun state => ?arena⟩
  case shaped =>
    intro t ht
    obtain ⟨state, hState⟩ := mem_items.mp ht
    exact hUniform state t hState
  case leads =>
    intro t ht
    refine ⟨?_, hClosed t ht⟩
    by_contra hPast
    exact hClosed t ht (transitions_of_stateCount_le (Nat.not_lt.mp hPast))
  case arena => rw [Arena.transitions_ofStates, transitions_eq_getD]

/-- A byte behind two streams that may be empty and send nothing. -/
def behindTwoEmpty : Inversion where
  wordBytes := 2
  streamCount := 3
  uses := .ofList [⟨2, 0, ⟨0, 0⟩, 0, 0, true⟩]

/-- The second state has no transitions, and the first one has a copy and the transition of empty
frames. -/
theorem coherent_of_build_behindTwoEmpty :
    Inversion.ofLayouts 2 [⟨[[some ⟨2, 0, 0, true⟩, none]]⟩] 3 = .ok behindTwoEmpty ∧
      behindTwoEmpty.Inside ∧
      ∃ table, build 2 3 behindTwoEmpty [true, true, true] = .ok table ∧
        (List.range 3).map (fun state => (table.transitions state).length) = [2, 0, 1] ∧
        table.Coherent 2 3 := by
  have hInversion :
      Inversion.ofLayouts 2 [⟨[[some ⟨2, 0, 0, true⟩, none]]⟩] 3 = .ok behindTwoEmpty := rfl
  have hInside := Inversion.inside_of_ofLayouts hInversion (by decide)
  have hTable : build 2 3 behindTwoEmpty [true, true, true] = .ok _ := rfl
  exact ⟨hInversion, hInside, _, hTable, rfl, (coherent_of_build hTable hInside).1⟩

end Table

end StreamSplice
