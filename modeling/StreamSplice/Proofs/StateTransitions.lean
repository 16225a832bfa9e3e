import Mathlib.Data.List.TakeWhile
import StreamSplice.Proofs.Shape

/-! The transitions of a table, state by state. Requiring registers leaves alone what a
transition does, so a transition leads where its context says; state 0 adds the copies
that skip empty leading streams, and nothing else is added. -/
namespace StreamSplice

namespace Transition

/-- What a transition does apart from testing, masking and reading its registers. -/
def effect (t : Transition) : Nat × Nat × List Bool × List (Option Selection) × Bool :=
  (t.state, t.nextState, t.outputKeep, t.outputMux, t.last)

@[simp]
theorem effect_requireKeep (t : Transition) (stream stage byte : Nat) (bit : BitGuard) :
    (t.requireKeep stream stage byte bit).effect = t.effect := rfl

@[simp]
theorem effect_requireSource (t : Transition) (source : Source) :
    (t.requireSource source).effect = t.effect := rfl

@[simp]
theorem effect_requireFirst (t : Transition) (source : Source) :
    (t.requireFirst source).effect = t.effect := rfl

@[simp]
theorem effect_requireRelict (t : Transition) (source : Source) (relict : Bool) :
    (t.requireRelict source relict).effect = t.effect := rfl

@[simp]
theorem effect_maskAbsent (t : Transition) : t.maskAbsent.effect = t.effect := rfl

@[simp]
theorem effect_skipEmpty (t : Transition) (start stop : Nat) :
    (t.skipEmpty start stop).effect = t.effect := by
  simp only [skipEmpty]
  split <;> rfl

end Transition

namespace Setting

variable (setting : Setting)

@[simp]
theorem effect_close (after : Option Source) (source : Source) (t : Transition) :
    (setting.close after source t).effect = t.effect := by
  unfold close
  dsimp only
  split
  · split <;> simp
  · simp

@[simp]
theorem effect_requireTrailing (closes continues atEnd : Bool) (source : Source)
    (t : Transition) :
    (setting.requireTrailing closes continues atEnd source t).effect = t.effect := by
  unfold requireTrailing
  dsimp only
  split <;> simp

@[simp]
theorem effect_drive (before after : Option Source) (atEnd : Bool) (source : Source)
    (t : Transition) : (setting.drive before after atEnd source t).effect = t.effect := by
  simp only [drive]
  rw [effect_requireTrailing]
  split <;> split <;> simp

@[simp]
theorem effect_driveAll (following before : Option Source) (sources : List (Option Source))
    (t : Transition) : (setting.driveAll following before sources t).effect = t.effect := by
  induction sources generalizing before t with
  | nil => rfl
  | cons cell rest ih =>
      cases cell with
      | none => exact ih none t
      | some source => rw [driveAll, ih, effect_drive]

/-- A transition drives the sources of its context and leads where its context says. -/
theorem effect_transition (context : Context) :
    (setting.transition context).effect =
      (context.state, context.nextState, context.sources.map Option.isSome,
        context.sources.map (Option.map Source.selection), context.last) := by
  unfold transition
  dsimp only
  split <;> simp only [Transition.effect_requireRelict, Transition.effect_maskAbsent,
    effect_driveAll] <;> rfl

theorem state_transition (context : Context) :
    (setting.transition context).state = context.state :=
  congrArg Prod.fst (setting.effect_transition context)

theorem nextState_transition (context : Context) :
    (setting.transition context).nextState = context.nextState :=
  congrArg (fun effect => effect.2.1) (setting.effect_transition context)

theorem outputMux_transition (context : Context) :
    (setting.transition context).outputMux =
      context.sources.map (Option.map Source.selection) :=
  congrArg (fun effect => effect.2.2.2.1) (setting.effect_transition context)

theorem last_transition (context : Context) :
    (setting.transition context).last = context.last :=
  congrArg (fun effect => effect.2.2.2.2) (setting.effect_transition context)

theorem effect_fromStart (state : Nat) (t : Transition) :
    (fromStart state t).effect = (0, t.nextState, t.outputKeep, t.outputMux, t.last) :=
  Transition.effect_skipEmpty _ _ _

theorem state_fromStart (state : Nat) (t : Transition) : (fromStart state t).state = 0 :=
  congrArg Prod.fst (effect_fromStart state t)

theorem nextState_fromStart (state : Nat) (t : Transition) :
    (fromStart state t).nextState = t.nextState :=
  congrArg (fun effect => effect.2.1) (effect_fromStart state t)

theorem outputMux_fromStart (state : Nat) (t : Transition) :
    (fromStart state t).outputMux = t.outputMux :=
  congrArg (fun effect => effect.2.2.2.1) (effect_fromStart state t)

theorem last_fromStart (state : Nat) (t : Transition) : (fromStart state t).last = t.last :=
  congrArg (fun effect => effect.2.2.2.2) (effect_fromStart state t)

/-- The transition of a context as one of state `state` that skips the first `leading`
streams. -/
def enter (context : Context) (state leading : Nat) : Transition :=
  { setting.transition context with state := state }.skipEmpty 0 leading

theorem enter_own (context : Context) :
    setting.enter context context.state 0 = setting.transition context := by
  have hState := setting.state_transition context
  rw [enter, Transition.skipEmpty, if_neg (Nat.lt_irrefl 0), ← hState]

theorem enter_start (context : Context) :
    setting.enter context 0 context.state =
      fromStart (setting.transition context).state (setting.transition context) := by
  rw [state_transition, enter, fromStart]

theorem effect_enter (context : Context) (state leading : Nat) :
    (setting.enter context state leading).effect =
      (state, context.nextState, context.sources.map Option.isSome,
        context.sources.map (Option.map Source.selection), context.last) := by
  rw [enter, Transition.effect_skipEmpty, Transition.effect, nextState_transition,
    outputMux_transition, last_transition]
  exact congrArg (fun effect => (state, context.nextState, effect.2.2.1, _, _))
    (setting.effect_transition context)

theorem nextState_enter (context : Context) (state leading : Nat) :
    (setting.enter context state leading).nextState = context.nextState :=
  congrArg (fun effect => effect.2.1) (setting.effect_enter context state leading)

theorem outputMux_enter (context : Context) (state leading : Nat) :
    (setting.enter context state leading).outputMux =
      context.sources.map (Option.map Source.selection) :=
  congrArg (fun effect => effect.2.2.2.1) (setting.effect_enter context state leading)

theorem last_enter (context : Context) (state leading : Nat) :
    (setting.enter context state leading).last = context.last :=
  congrArg (fun effect => effect.2.2.2.2) (setting.effect_enter context state leading)

theorem shaped_enter {context : Context} (hSources : context.sources.length = setting.wordBytes)
    (state leading : Nat) :
    (setting.enter context state leading).Shaped setting.wordBytes setting.lookahead :=
  ((setting.shaped_transition hSources).withState state).skipEmpty 0 leading

theorem effect_allEmpty :
    setting.allEmpty.effect = (0, 0, List.replicate setting.wordBytes false,
      List.replicate setting.wordBytes none, true) :=
  Transition.effect_skipEmpty _ _ _

variable {setting : Setting} {transitions : List Transition} {t : Transition}

/-- The empty prefix is all of the streams if all of them may be empty. -/
theorem emptyPrefix_eq_iff (h : setting.emptiable.length = setting.streamCount) :
    setting.emptyPrefix = setting.streamCount ↔ ∀ flag ∈ setting.emptiable, flag = true := by
  rw [← h, emptyPrefix]
  constructor
  · intro hLength
    exact List.takeWhile_eq_self_iff.mp ((List.takeWhile_prefix id).eq_of_length hLength)
  · intro hAll
    exact congrArg List.length (List.takeWhile_eq_self_iff.mpr hAll)

/-- State 0 holds its own transitions, the copies that skip the leading streams of a later
state, and the transition of empty frames if every stream may be empty. -/
theorem mem_stateTransitions_zero (hPrefix : 0 < setting.emptyPrefix) :
    t ∈ setting.stateTransitions transitions 0 ↔
      (t ∈ transitions ∧ t.state = 0) ∨
      (∃ own ∈ transitions, 0 < own.state ∧ own.state ≤ setting.emptyPrefix ∧
        own.state < setting.streamCount ∧ fromStart own.state own = t) ∨
      (setting.emptyPrefix = setting.streamCount ∧ t = setting.allEmpty) := by
  rw [stateTransitions, if_pos ⟨rfl, hPrefix⟩]
  simp only [List.mem_append, List.mem_flatMap, List.mem_map, List.mem_filter, beq_iff_eq,
    List.mem_range'_1]
  constructor
  · rintro ((h | ⟨state, hRange, own, ⟨hOwn, rfl⟩, hCopy⟩) | h)
    · exact .inl h
    · exact .inr (.inl ⟨own, hOwn, by omega, by omega, by omega, hCopy⟩)
    · split at h
      · next hAll => exact .inr (.inr ⟨hAll, List.mem_singleton.mp h⟩)
      · exact absurd h List.not_mem_nil
  · rintro (h | ⟨own, hOwn, hPositive, hReached, hBound, hCopy⟩ | ⟨hAll, rfl⟩)
    · exact .inl (.inl h)
    · exact .inl (.inr ⟨own.state, by omega, own, ⟨hOwn, rfl⟩, hCopy⟩)
    · exact .inr (by simp [hAll])

/-- Other states hold their own transitions only. -/
theorem mem_stateTransitions {state : Nat} (h : state ≠ 0 ∨ setting.emptyPrefix = 0) :
    t ∈ setting.stateTransitions transitions state ↔ t ∈ transitions ∧ t.state = state := by
  have hNot : ¬(state = 0 ∧ 0 < setting.emptyPrefix) := by omega
  rw [stateTransitions, if_neg hNot, List.mem_filter, beq_iff_eq]

/-- What a state holds does not depend on the order of the transitions and their repetitions. -/
theorem mem_stateTransitions_congr {others : List Transition}
    (h : ∀ t, t ∈ transitions ↔ t ∈ others) (state : Nat) (t : Transition) :
    t ∈ setting.stateTransitions transitions state ↔
      t ∈ setting.stateTransitions others state := by
  by_cases hOwn : state ≠ 0 ∨ setting.emptyPrefix = 0
  · rw [mem_stateTransitions hOwn, mem_stateTransitions hOwn, h]
  · obtain rfl : state = 0 := by omega
    rw [mem_stateTransitions_zero (by omega), mem_stateTransitions_zero (by omega)]
    simp only [h]

/-- A transition belongs to its own state. -/
theorem mem_stateTransitions_own (h : t ∈ transitions) :
    t ∈ setting.stateTransitions transitions t.state := by
  by_cases hZero : t.state ≠ 0 ∨ setting.emptyPrefix = 0
  · exact (mem_stateTransitions hZero).mpr ⟨h, rfl⟩
  · have hState : t.state = 0 := by omega
    rw [hState]
    exact (mem_stateTransitions_zero (by omega)).mpr (.inl ⟨h, hState⟩)

theorem fromStart_zero (h : t.state = 0) : fromStart 0 t = t := by
  cases t
  cases h
  rfl

/-- The copy that skips the streams before a state is among the transitions of state 0, if all
of these streams may be empty. -/
theorem fromStart_mem_stateTransitions (h : t ∈ transitions)
    (hPrefix : t.state ≤ setting.emptyPrefix) (hBound : t.state < setting.streamCount) :
    fromStart t.state t ∈ setting.stateTransitions transitions 0 := by
  rcases Nat.eq_zero_or_pos t.state with hZero | hPositive
  · have hOwn : t ∈ setting.stateTransitions transitions t.state := mem_stateTransitions_own h
    rw [hZero] at hOwn ⊢
    rwa [fromStart_zero hZero]
  · exact (mem_stateTransitions_zero (by omega)).mpr
      (.inr (.inl ⟨t, h, hPositive, hPrefix, hBound, rfl⟩))

/-- A transition of a state is one of its own, and in state 0 it may also be a copy or, if every
stream may be empty, the transition of empty frames. -/
theorem of_mem_stateTransitions {state : Nat}
    (h : t ∈ setting.stateTransitions transitions state) :
    (t ∈ transitions ∧ t.state = state) ∨
      (state = 0 ∧ ∃ own ∈ transitions, fromStart own.state own = t) ∨
      (state = 0 ∧ setting.emptyPrefix = setting.streamCount ∧ setting.allEmpty = t) := by
  by_cases hZero : state ≠ 0 ∨ setting.emptyPrefix = 0
  · exact .inl ((mem_stateTransitions hZero).mp h)
  · obtain rfl : state = 0 := by omega
    rcases (mem_stateTransitions_zero (by omega)).mp h with
      h | ⟨own, hOwn, _, _, _, hCopy⟩ | ⟨hAll, rfl⟩
    · exact .inl h
    · exact .inr (.inl ⟨rfl, own, hOwn, hCopy⟩)
    · exact .inr (.inr ⟨rfl, hAll, rfl⟩)

theorem state_of_mem_stateTransitions {state : Nat}
    (h : t ∈ setting.stateTransitions transitions state) : t.state = state := by
  rcases of_mem_stateTransitions h with
    ⟨_, hState⟩ | ⟨rfl, own, _, rfl⟩ | ⟨rfl, _, rfl⟩
  · exact hState
  · exact state_fromStart _ _
  · exact congrArg Prod.fst setting.effect_allEmpty

/-- The copies and the transition of empty frames have the shape of the others. -/
theorem shaped_of_mem_stateTransitions {state : Nat}
    (hShaped : ∀ t ∈ transitions, t.Shaped setting.wordBytes setting.lookahead)
    (h : t ∈ setting.stateTransitions transitions state) :
    t.Shaped setting.wordBytes setting.lookahead := by
  rcases of_mem_stateTransitions h with
    ⟨hOwn, _⟩ | ⟨_, own, hOwn, rfl⟩ | ⟨_, _, rfl⟩
  · exact hShaped t hOwn
  · exact shaped_fromStart _ (hShaped own hOwn)
  · exact setting.shaped_allEmpty

/-- Exactly the output bytes with a selection are driven. -/
theorem outputKeep_of_mem_stateTransitions {state : Nat}
    (hDriven : ∀ t ∈ transitions, t.outputKeep = t.outputMux.map Option.isSome)
    (h : t ∈ setting.stateTransitions transitions state) :
    t.outputKeep = t.outputMux.map Option.isSome := by
  rcases of_mem_stateTransitions h with
    ⟨hOwn, _⟩ | ⟨_, own, hOwn, rfl⟩ | ⟨_, _, rfl⟩
  · exact hDriven t hOwn
  · have hEffect := effect_fromStart own.state own
    simp only [Transition.effect, Prod.mk.injEq] at hEffect
    rw [hEffect.2.2.1, hEffect.2.2.2.1, hDriven own hOwn]
  · have hEffect := setting.effect_allEmpty
    simp only [Transition.effect, Prod.mk.injEq] at hEffect
    rw [hEffect.2.2.1, hEffect.2.2.2.1, List.map_replicate, Option.isSome_none]

end Setting

namespace Table

variable {setting : Setting} {contexts : SortedSet Context}

/-- A state of the table holds the transitions collected for it, each once. -/
theorem mem_transitions_ofContexts {state : Nat} {t : Transition} :
    t ∈ (ofContexts setting contexts).transitions state ↔
      state < setting.streamCount ∧
        t ∈ setting.stateTransitions (contexts.toList.map setting.transition) state := by
  simp only [transitions, ofContexts, List.getElem?_map]
  by_cases hState : state < setting.streamCount
  · simp [hState, SortedSet.mem_toList, SortedSet.mem_ofList]
  · simp [hState]

theorem mem_items {table : Table} {t : Transition} :
    t ∈ table.items ↔ ∃ state, t ∈ table.transitions state := by
  simp only [items, List.mem_flatMap, transitions]
  constructor
  · rintro ⟨set, hSet, h⟩
    obtain ⟨state, hState⟩ := List.mem_iff_getElem?.mp hSet
    exact ⟨state, by simpa [hState] using h⟩
  · rintro ⟨state, h⟩
    cases hState : table.states[state]? with
    | none => simp [hState] at h
    | some set => exact ⟨set, List.mem_of_getElem? hState, by simpa [hState] using h⟩

/-- The transitions of the table drive exactly the bytes they select. -/
theorem outputKeep_of_mem_items {t : Transition} (h : t ∈ (ofContexts setting contexts).items) :
    t.outputKeep = t.outputMux.map Option.isSome := by
  obtain ⟨state, hState⟩ := mem_items.mp h
  refine Setting.outputKeep_of_mem_stateTransitions ?_ (mem_transitions_ofContexts.mp hState).2
  intro own hOwn
  obtain ⟨context, _, rfl⟩ := List.mem_map.mp hOwn
  have hEffect := setting.effect_transition context
  simp only [Transition.effect, Prod.mk.injEq] at hEffect
  rw [hEffect.2.2.1, hEffect.2.2.2.1, List.map_map]
  apply List.map_congr_left
  intro cell _
  cases cell <;> rfl

end Table

end StreamSplice
