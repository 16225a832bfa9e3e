import StreamSplice.Layout.Placement
import StreamSplice.Proofs.StateTransitions
import StreamSplice.Proofs.SubStates

/-! Determinism is decided exactly. The construction refuses a machine if and only if some
registers enable two transitions of a state, and names the first such pair. In a machine
that is built, registers enable at most one transition of a state. -/
namespace StreamSplice

open Std

namespace Table

/-- Two transitions of a state, in their order, that some registers enable both. -/
def Overlap (table : Table) (state : Nat) (first second : Transition) : Prop :=
  first ∈ table.transitions state ∧ second ∈ table.transitions state ∧
    compare first second = .lt ∧
    ∃ registers, first.isEnabled registers ∧ second.isEnabled registers

/-- All transitions guard the registers that the machine has. -/
def Uniform (table : Table) : Prop :=
  ∀ state, ∀ t ∈ table.transitions state, t.Shaped table.wordBytes table.lookahead

theorem ascending_transitions (table : Table) (state : Nat) :
    (table.transitions state).Pairwise fun a b => compare a b = .lt := by
  simp only [transitions]
  split
  · next set _ => exact set.ascending
  · exact .nil

theorem lt_or_lt_of_ne {a b : Transition} (h : a ≠ b) : compare a b = .lt ∨ compare b a = .lt := by
  cases hOrder : compare a b with
  | lt => exact .inl rfl
  | eq => exact absurd (LawfulEqOrd.eq_of_compare hOrder) h
  | gt => exact .inr (OrientedCmp.lt_of_gt hOrder)

theorem ne_of_lt {a b : Transition} (h : compare a b = .lt) : a ≠ b := by
  rintro rfl
  rw [ReflOrd.compare_self] at h
  cases h

/-- The greater of two members of an ascending list is not its head. -/
theorem mem_tail_of_lt {t a b : Transition} {rest : List Transition}
    (hHead : ∀ x ∈ rest, compare t x = .lt) (ha : a ∈ t :: rest) (hb : b ∈ t :: rest)
    (h : compare a b = .lt) : b ∈ rest := by
  rcases List.mem_cons.mp hb with rfl | hb
  · rcases List.mem_cons.mp ha with rfl | ha
    · exact absurd rfl (ne_of_lt h)
    · exact absurd rfl (ne_of_lt (TransCmp.lt_trans h (hHead a ha)))
  · exact hb

/-- If no pair is found, all pairs exclude each other. -/
theorem excludes_of_overlap?_eq_none {ts : List Transition}
    (hAscending : ts.Pairwise fun a b => compare a b = .lt) (h : overlap? ts = none) :
    ∀ a ∈ ts, ∀ b ∈ ts, compare a b = .lt → a.excludes b := by
  induction ts with
  | nil => simp
  | cons t rest ih =>
      rw [List.pairwise_cons] at hAscending
      rw [overlap?] at h
      cases hFind : rest.find? (!t.excludes ·) with
      | some found =>
          rw [hFind] at h
          cases h
      | none =>
          rw [hFind] at h
          intro a ha b hb hOrder
          have hRest := mem_tail_of_lt hAscending.1 ha hb hOrder
          rcases List.mem_cons.mp ha with rfl | ha
          · simpa using List.find?_eq_none.mp hFind b hRest
          · exact ih hAscending.2 h a ha b hRest hOrder

/-- The pair that is found overlaps, and none before it in the order of pairs does. -/
theorem overlap?_eq_some {ts : List Transition} {first second : Transition}
    (hAscending : ts.Pairwise fun a b => compare a b = .lt)
    (h : overlap? ts = some (first, second)) :
    (first ∈ ts ∧ second ∈ ts ∧ compare first second = .lt ∧ ¬first.excludes second) ∧
      ∀ a ∈ ts, ∀ b ∈ ts, compare a b = .lt → ¬a.excludes b →
        ((compare first a).then (compare second b)).isLE := by
  induction ts with
  | nil => cases h
  | cons t rest ih =>
      rw [List.pairwise_cons] at hAscending
      rw [overlap?] at h
      cases hFind : rest.find? (!t.excludes ·) with
      | some found =>
          rw [hFind] at h
          cases h
          obtain ⟨hOverlap, before, after, rfl, hBefore⟩ := List.find?_eq_some_iff_append.mp hFind
          have hMem : second ∈ before ++ second :: after := by simp
          refine ⟨⟨List.mem_cons_self, List.mem_cons_of_mem _ hMem, hAscending.1 _ hMem,
            by simpa using hOverlap⟩, fun a ha b hb hOrder hCommon => ?_⟩
          rcases List.mem_cons.mp ha with rfl | ha
          · have hb := mem_tail_of_lt hAscending.1 ha hb hOrder
            rw [ReflOrd.compare_self, Ordering.then]
            rcases List.mem_append.mp hb with hb | hb
            · exact absurd (by simpa using hBefore b hb) hCommon
            · rcases List.mem_cons.mp hb with rfl | hb
              · simp
              · have hTail := (List.pairwise_append.mp hAscending.2).2.1
                simp [(List.pairwise_cons.mp hTail).1 b hb]
          · simp [hAscending.1 a ha]
      | none =>
          rw [hFind] at h
          obtain ⟨⟨hFirst, hSecond, hOrder, hCommon⟩, hLeast⟩ := ih hAscending.2 h
          refine ⟨⟨List.mem_cons_of_mem _ hFirst, List.mem_cons_of_mem _ hSecond, hOrder, hCommon⟩,
            fun a ha b hb hOrder hCommon => ?_⟩
          have hRest := mem_tail_of_lt hAscending.1 ha hb hOrder
          rcases List.mem_cons.mp ha with rfl | ha
          · exact absurd (by simpa using List.find?_eq_none.mp hFind b hRest) hCommon
          · exact hLeast a ha b hRest hOrder hCommon

theorem requireDeterministic_eq_ok {start : Nat} {sets : List (SortedSet Transition)} :
    requireDeterministic start sets = .ok () ↔ ∀ set ∈ sets, overlap? set.toList = none := by
  induction sets generalizing start with
  | nil => simp [requireDeterministic]
  | cons set rest ih =>
      rw [requireDeterministic, List.forall_mem_cons]
      cases overlap? set.toList with
      | none => simp [ih]
      | some pair => simp

/-- The reported pair is the first one of the first state that has one. -/
theorem requireDeterministic_eq_error {start : Nat} {sets : List (SortedSet Transition)}
    {e : Violation} (h : requireDeterministic start sets = .error e) :
    ∃ i set first second, sets[i]? = some set ∧ overlap? set.toList = some (first, second) ∧
      e = .nonDeterministic (start + i) first second ∧
      ∀ j < i, ∀ other, sets[j]? = some other → overlap? other.toList = none := by
  induction sets generalizing start with
  | nil => cases h
  | cons set rest ih =>
      rw [requireDeterministic] at h
      cases hOverlap : overlap? set.toList with
      | some pair =>
          rw [hOverlap] at h
          cases h
          exact ⟨0, set, pair.1, pair.2, rfl, hOverlap, rfl, fun j hj => absurd hj (by omega)⟩
      | none =>
          rw [hOverlap] at h
          obtain ⟨i, found, first, second, hFound, hPair, rfl, hEarlier⟩ := ih h
          refine ⟨i + 1, found, first, second, hFound, hPair, by congr 1; omega, ?_⟩
          intro j hj other hOther
          cases j with
          | zero =>
              cases hOther
              exact hOverlap
          | succ j => exact hEarlier j (by omega) other hOther

variable {table : Table}

/-- Transitions of a state that no registers enable together are exactly those that
exclude each other. -/
theorem excludes_iff_of_uniform (hUniform : table.Uniform) {state : Nat} {t other : Transition}
    (ht : t ∈ table.transitions state) (hOther : other ∈ table.transitions state) :
    t.excludes other ↔ ∀ registers, ¬(t.isEnabled registers ∧ other.isEnabled registers) :=
  Transition.excludes_iff
    ((hUniform state t ht).guards.trans (hUniform state other hOther).guards.symm)

/-- No pair is found in a state exactly if none overlaps. -/
theorem overlap?_transitions_eq_none (hUniform : table.Uniform) {state : Nat} :
    overlap? (table.transitions state) = none ↔
      ∀ first second, ¬table.Overlap state first second := by
  have hAscending := table.ascending_transitions state
  constructor
  · rintro hNone first second ⟨hFirst, hSecond, hOrder, registers, hBoth⟩
    have hExcludes :=
      excludes_of_overlap?_eq_none hAscending hNone first hFirst second hSecond hOrder
    exact (excludes_iff_of_uniform hUniform hFirst hSecond).mp hExcludes registers hBoth
  · intro hNone
    cases hOverlap : overlap? (table.transitions state) with
    | none => rfl
    | some pair =>
        obtain ⟨⟨hFirst, hSecond, hOrder, hCommon⟩, _⟩ := overlap?_eq_some hAscending hOverlap
        rw [excludes_iff_of_uniform hUniform hFirst hSecond] at hCommon
        simp only [not_forall, not_not] at hCommon
        exact absurd ⟨hFirst, hSecond, hOrder, hCommon⟩ (hNone pair.1 pair.2)

/-- The pair that is found in a state is its first overlap. -/
theorem overlap_of_overlap?_transitions (hUniform : table.Uniform) {state : Nat}
    {first second : Transition} (h : overlap? (table.transitions state) = some (first, second)) :
    table.Overlap state first second ∧ ∀ a b, table.Overlap state a b →
      ((compare first a).then (compare second b)).isLE := by
  obtain ⟨⟨hFirst, hSecond, hOrder, hCommon⟩, hLeast⟩ :=
    overlap?_eq_some (table.ascending_transitions state) h
  rw [excludes_iff_of_uniform hUniform hFirst hSecond] at hCommon
  simp only [not_forall, not_not] at hCommon
  refine ⟨⟨hFirst, hSecond, hOrder, hCommon⟩, ?_⟩
  rintro a b ⟨ha, hb, hOrder, registers, hBoth⟩
  apply hLeast a ha b hb hOrder
  intro hExcludes
  exact (excludes_iff_of_uniform hUniform ha hb).mp hExcludes registers hBoth

theorem transitions_eq_toList {state : Nat} {set : SortedSet Transition}
    (h : table.states[state]? = some set) : table.transitions state = set.toList := by
  rw [transitions, h]

/-- The check passes exactly if no pair of any state overlaps. -/
theorem requireDeterministic_states_eq_ok (hUniform : table.Uniform) :
    requireDeterministic 0 table.states = .ok () ↔
      ∀ state first second, ¬table.Overlap state first second := by
  rw [requireDeterministic_eq_ok]
  constructor
  · intro hNone state
    rw [← overlap?_transitions_eq_none hUniform, transitions]
    split
    · next set hSet => exact hNone set (List.mem_of_getElem? hSet)
    · rfl
  · intro hNone set hSet
    obtain ⟨state, hState⟩ := List.mem_iff_getElem?.mp hSet
    rw [← transitions_eq_toList hState, overlap?_transitions_eq_none hUniform]
    exact hNone state

/-- A failed check names the first overlap of the first state that has one. -/
theorem requireDeterministic_states_eq_error (hUniform : table.Uniform) {e : Violation}
    (h : requireDeterministic 0 table.states = .error e) :
    ∃ state first second, e = .nonDeterministic state first second ∧
      table.Overlap state first second ∧
      ∀ state' a b, table.Overlap state' a b →
        ((compare state state').then ((compare first a).then (compare second b))).isLE := by
  obtain ⟨state, set, first, second, hSet, hPair, rfl, hEarlier⟩ :=
    requireDeterministic_eq_error h
  rw [← transitions_eq_toList hSet] at hPair
  obtain ⟨hOverlap, hLeast⟩ := overlap_of_overlap?_transitions hUniform hPair
  refine ⟨state, first, second, by rw [Nat.zero_add], hOverlap, fun state' a b h => ?_⟩
  rcases Nat.lt_trichotomy state state' with hLt | rfl | hGt
  · rw [Nat.compare_eq_lt.mpr hLt]
    rfl
  · rw [ReflOrd.compare_self]
    exact hLeast a b h
  · obtain ⟨other, hOther⟩ : ∃ other, table.states[state']? = some other := by
      obtain ⟨hBound, _⟩ := List.getElem?_eq_some_iff.mp hSet
      exact ⟨_, List.getElem?_eq_getElem (by omega)⟩
    have hNone := hEarlier state' hGt other hOther
    rw [← transitions_eq_toList hOther, overlap?_transitions_eq_none hUniform] at hNone
    exact absurd h (hNone a b)

/-- Different transitions of a state that registers enable both are an overlap. -/
theorem exists_overlap {state : Nat} {t other : Transition} {registers : List (List Register)}
    (ht : t ∈ table.transitions state) (hOther : other ∈ table.transitions state)
    (hNe : t ≠ other) (hEnabled : t.isEnabled registers) (hEnabled' : other.isEnabled registers) :
    ∃ first second, table.Overlap state first second := by
  rcases lt_or_lt_of_ne hNe with hOrder | hOrder
  · exact ⟨t, other, ht, hOther, hOrder, registers, hEnabled, hEnabled'⟩
  · exact ⟨other, t, hOther, ht, hOrder, registers, hEnabled', hEnabled⟩

/-- Without overlap, registers enable at most one transition of a state. -/
theorem eq_of_isEnabled (hNone : ∀ state first second, ¬table.Overlap state first second)
    {state : Nat} {t other : Transition} {registers : List (List Register)}
    (ht : t ∈ table.transitions state) (hOther : other ∈ table.transitions state)
    (hEnabled : t.isEnabled registers) (hEnabled' : other.isEnabled registers) : t = other := by
  by_contra hNe
  obtain ⟨first, second, hOverlap⟩ := exists_overlap ht hOther hNe hEnabled hEnabled'
  exact hNone state first second hOverlap

/-- Without overlap, a transition is selected exactly if it is enabled. -/
theorem select_eq_some_iff (hNone : ∀ state first second, ¬table.Overlap state first second)
    {state : Nat} {t : Transition} {registers : List (List Register)} :
    table.select state registers = some t ↔
      t ∈ table.transitions state ∧ t.isEnabled registers := by
  constructor
  · intro h
    exact ⟨List.mem_of_find?_eq_some h, by simpa using List.find?_some h⟩
  · rintro ⟨ht, hEnabled⟩
    cases hSelect : table.select state registers with
    | none => exact absurd hEnabled (by simpa using List.find?_eq_none.mp hSelect t ht)
    | some other =>
        have hOther := List.find?_some hSelect
        rw [eq_of_isEnabled hNone (List.mem_of_find?_eq_some hSelect) ht hOther hEnabled]

/-- The transitions made from contexts all have the shape of the machine. -/
theorem uniform_ofContexts {setting : Setting} {contexts : SortedSet Context}
    (h : ∀ context ∈ contexts, context.sources.length = setting.wordBytes) :
    (ofContexts setting contexts).Uniform := by
  intro state t ht
  refine Setting.shaped_of_mem_stateTransitions ?_ (mem_transitions_ofContexts.mp ht).2
  intro own hOwn
  obtain ⟨context, hContext, rfl⟩ := List.mem_map.mp hOwn
  exact setting.shaped_transition (h context hContext)

/-- Past the checks of its arguments, the construction fails only by the check of
determinism and then by the check of liveness. -/
theorem build_eq {wordBytes streamCount : Nat} {inversion : Inversion} {emptiable : List Bool}
    {contexts : SortedSet Context} (hStreams : inversion.streamCount = streamCount)
    (hEmptiable : emptiable.length = streamCount) (hWidth : inversion.wordBytes = wordBytes)
    (hContexts : inversion.contexts = .ok contexts) :
    build wordBytes streamCount inversion emptiable =
      let table := ofContexts ⟨wordBytes, streamCount, inversion.lookahead, emptiable⟩ contexts
      (do
        requireDeterministic 0 table.states
        table.requireLive
        return table) := by
  simp [build, hStreams, hEmptiable, hWidth, hContexts, bind, Except.bind, pure, Except.pure]

theorem requireLive_ne_nonDeterministic {state : Nat} {first second : Transition} :
    (do table.requireLive; return table : Except Violation Table) ≠
      .error (.nonDeterministic state first second) := by
  simp only [requireLive]
  split <;> simp [bind, Except.bind, pure, Except.pure]

/-- A built table is the table of its contexts, and its states have no overlap. -/
theorem build_eq_ok {wordBytes streamCount : Nat} {inversion : Inversion}
    {emptiable : List Bool} {table : Table}
    (h : build wordBytes streamCount inversion emptiable = .ok table) :
    inversion.streamCount = streamCount ∧ emptiable.length = streamCount ∧
      inversion.wordBytes = wordBytes ∧
      ∃ contexts, inversion.contexts = .ok contexts ∧
        table = ofContexts ⟨wordBytes, streamCount, inversion.lookahead, emptiable⟩ contexts ∧
        table.Uniform ∧ ∀ state first second, ¬table.Overlap state first second := by
  have hSizes : inversion.streamCount = streamCount ∧ emptiable.length = streamCount ∧
      inversion.wordBytes = wordBytes := by
    by_contra hSizes
    by_cases hStreams : inversion.streamCount = streamCount <;>
      by_cases hEmptiable : emptiable.length = streamCount <;>
      by_cases hWidth : inversion.wordBytes = wordBytes <;>
      simp_all [build, bind, Except.bind, throw, throwThe, MonadExceptOf.throw]
  obtain ⟨hStreams, hEmptiable, hWidth⟩ := hSizes
  cases hContexts : inversion.contexts with
  | error e => simp [build, hStreams, hEmptiable, hWidth, hContexts, bind, Except.bind] at h
  | ok contexts =>
      rw [build_eq hStreams hEmptiable hWidth hContexts] at h
      obtain ⟨_, hDeterministic, h⟩ := bind_eq_ok.mp h
      obtain ⟨_, _, h⟩ := bind_eq_ok.mp h
      cases h
      have hUniform : (ofContexts ⟨wordBytes, streamCount, inversion.lookahead, emptiable⟩
          contexts).Uniform :=
        uniform_ofContexts fun context hMem =>
          (Inversion.length_sources_of_contexts hContexts hMem).trans hWidth
      exact ⟨hStreams, hEmptiable, hWidth, contexts, rfl, rfl, hUniform,
        (requireDeterministic_states_eq_ok hUniform).mp hDeterministic⟩

/-- Without overlap, every transition of a table is selected for some registers. -/
theorem exists_select_eq_some {setting : Setting} {contexts : SortedSet Context}
    (hNone : ∀ state first second, ¬(ofContexts setting contexts).Overlap state first second)
    {t : Transition} (ht : t ∈ (ofContexts setting contexts).items) :
    ∃ registers, (ofContexts setting contexts).select t.state registers = some t := by
  obtain ⟨state, hState⟩ := mem_items.mp ht
  obtain ⟨registers, hEnabled⟩ := t.exists_isEnabled
  have hOwn := Setting.state_of_mem_stateTransitions (mem_transitions_ofContexts.mp hState).2
  exact ⟨registers, (select_eq_some_iff hNone).mpr ⟨by rwa [hOwn], hEnabled⟩⟩

section Check

variable {wordBytes streamCount : Nat} {inversion : Inversion} {emptiable : List Bool}
  {contexts : SortedSet Context} (hStreams : inversion.streamCount = streamCount)
  (hEmptiable : emptiable.length = streamCount) (hWidth : inversion.wordBytes = wordBytes)
  (hContexts : inversion.contexts = .ok contexts)

omit hStreams hEmptiable in
include hWidth hContexts in
theorem uniform_of_contexts :
    (ofContexts ⟨wordBytes, streamCount, inversion.lookahead, emptiable⟩ contexts).Uniform :=
  uniform_ofContexts fun _ hMem =>
    (Inversion.length_sources_of_contexts hContexts hMem).trans hWidth

include hStreams hEmptiable hWidth hContexts

/-- Without overlap, the construction reports none. -/
theorem build_ne_nonDeterministic
    (hNone : ∀ state first second, ¬(ofContexts ⟨wordBytes, streamCount, inversion.lookahead,
      emptiable⟩ contexts).Overlap state first second) (state : Nat) (first second : Transition) :
    build wordBytes streamCount inversion emptiable ≠
      .error (.nonDeterministic state first second) := by
  have hCheck := (requireDeterministic_states_eq_ok (uniform_of_contexts hWidth hContexts)).mpr
    hNone
  rw [build_eq hStreams hEmptiable hWidth hContexts]
  dsimp only
  rw [hCheck]
  exact requireLive_ne_nonDeterministic

/-- If some pair overlaps, the construction reports the first pair that does. -/
theorem exists_build_eq_nonDeterministic {state : Nat} {t other : Transition}
    (hOverlap : (ofContexts ⟨wordBytes, streamCount, inversion.lookahead, emptiable⟩
      contexts).Overlap state t other) :
    ∃ state first second, build wordBytes streamCount inversion emptiable =
        .error (.nonDeterministic state first second) ∧
      (ofContexts ⟨wordBytes, streamCount, inversion.lookahead, emptiable⟩ contexts).Overlap state
        first second ∧
      ∀ state' a b, (ofContexts ⟨wordBytes, streamCount, inversion.lookahead, emptiable⟩
          contexts).Overlap state' a b →
        ((compare state state').then ((compare first a).then (compare second b))).isLE := by
  have hUniform := @uniform_of_contexts _ streamCount _ emptiable _ hWidth hContexts
  cases hCheck : requireDeterministic 0 (ofContexts ⟨wordBytes, streamCount, inversion.lookahead,
      emptiable⟩ contexts).states with
  | ok _ =>
      have hNone := (requireDeterministic_states_eq_ok hUniform).mp hCheck
      exact absurd hOverlap (hNone state t other)
  | error e =>
      obtain ⟨state, first, second, rfl, hFirst⟩ :=
        requireDeterministic_states_eq_error hUniform hCheck
      refine ⟨state, first, second, ?_, hFirst⟩
      rw [build_eq hStreams hEmptiable hWidth hContexts]
      dsimp only
      rw [hCheck]
      rfl

end Check

/-- Registers that enable a transition of a table have the shape of the machine. -/
theorem shape_of_isEnabled {state : Nat} {t : Transition} {registers : List (List Register)}
    (hUniform : table.Uniform) (ht : t ∈ table.transitions state)
    (hEnabled : t.isEnabled registers) :
    registers.map (List.map fun register => register.keep.length) =
      table.registerCounts.map (List.replicate · table.wordBytes) := by
  rw [Transition.shape_of_isEnabled hEnabled, (hUniform state t ht).guards]
  simp [registerShape, registerCounts]

/-- Determinism is decided exactly, for every call that gets as far as its check. Unless
registers enable two different transitions of a state, no overlap is reported; if some do,
the first overlapping pair is reported, and registers of the shape of the machine enable
both. In a machine that is built, registers enable at most one transition of a state,
exactly this one is selected, and every transition is selected for some registers. -/
theorem build_overlap_exact {wordBytes streamCount : Nat} {inversion : Inversion}
    {emptiable : List Bool} {contexts : SortedSet Context}
    (hStreams : inversion.streamCount = streamCount)
    (hEmptiable : emptiable.length = streamCount) (hWidth : inversion.wordBytes = wordBytes)
    (hContexts : inversion.contexts = .ok contexts) :
    let table := ofContexts ⟨wordBytes, streamCount, inversion.lookahead, emptiable⟩ contexts
    let result := build wordBytes streamCount inversion emptiable
    ((∀ state, ∀ t ∈ table.transitions state, ∀ other ∈ table.transitions state, t ≠ other →
        ∀ registers, ¬(t.isEnabled registers ∧ other.isEnabled registers)) →
      ∀ state first second, result ≠ .error (.nonDeterministic state first second)) ∧
    ((∃ state, ∃ t ∈ table.transitions state, ∃ other ∈ table.transitions state, t ≠ other ∧
        ∃ registers, t.isEnabled registers ∧ other.isEnabled registers) →
      ∃ state first second, result = .error (.nonDeterministic state first second) ∧
        table.Overlap state first second ∧
        (∀ state' a b, table.Overlap state' a b →
          ((compare state state').then ((compare first a).then (compare second b))).isLE) ∧
        ∃ registers : List (List Register),
          registers.map (List.map fun register => register.keep.length) =
            table.registerCounts.map (List.replicate · table.wordBytes) ∧
          first.isEnabled registers ∧ second.isEnabled registers) ∧
    ∀ built, result = .ok built → ∀ state registers,
      (∀ t ∈ built.transitions state, ∀ other ∈ built.transitions state,
        t.isEnabled registers → other.isEnabled registers → t = other) ∧
      (∀ t, built.select state registers = some t ↔
        t ∈ built.transitions state ∧ t.isEnabled registers) ∧
      ∀ t ∈ built.items, ∃ registers, built.select t.state registers = some t := by
  intro table result
  refine ⟨fun hDisjoint => ?_, ?_, fun built hBuilt state registers => ?_⟩
  · apply build_ne_nonDeterministic hStreams hEmptiable hWidth hContexts
    rintro state first second ⟨hFirst, hSecond, hOrder, registers, hBoth⟩
    exact hDisjoint state first hFirst second hSecond (ne_of_lt hOrder) registers hBoth
  · rintro ⟨state, t, ht, other, hOther, hNe, registers, hEnabled, hEnabled'⟩
    obtain ⟨_, _, hOverlap⟩ := exists_overlap ht hOther hNe hEnabled hEnabled'
    obtain ⟨state, first, second, hError, hFirst, hLeast⟩ :=
      exists_build_eq_nonDeterministic hStreams hEmptiable hWidth hContexts hOverlap
    have ⟨hMem, _, _, registers, hEnabled, hEnabled'⟩ := hFirst
    have hUniform := @uniform_of_contexts _ streamCount _ emptiable _ hWidth hContexts
    exact ⟨state, first, second, hError, hFirst, hLeast, registers,
      shape_of_isEnabled hUniform hMem hEnabled, hEnabled, hEnabled'⟩
  · obtain ⟨_, _, _, _, _, rfl, _, hNone⟩ := build_eq_ok hBuilt
    exact ⟨fun t ht other hOther => eq_of_isEnabled hNone ht hOther,
      fun t => select_eq_some_iff hNone, fun t ht => exists_select_eq_some hNone ht⟩

/-- A frame of three bytes, laid out from the start of a word and from its second byte. -/
def twoStarts : Inversion where
  wordBytes := 2
  streamCount := 1
  uses := .ofList [
    ⟨0, 0, ⟨0, 0⟩, 0, 0, false⟩, ⟨0, 1, ⟨0, 0⟩, 0, 1, false⟩, ⟨0, 0, ⟨0, 1⟩, 0, 0, true⟩,
    ⟨0, 0, ⟨1, 0⟩, 0, 1, false⟩, ⟨0, 1, ⟨1, 1⟩, 0, 0, false⟩, ⟨0, 0, ⟨1, 1⟩, 1, 1, true⟩]

/-- The first registers of a frame do not tell where its output starts. -/
theorem build_overlap_exact_twoStarts :
    ∃ aligned shifted contexts, Layout.place 2 0 3 0 0 = .ok aligned ∧
      Layout.place 2 0 3 1 0 = .ok shifted ∧
      Inversion.ofLayouts 2 [aligned, shifted] 1 = .ok twoStarts ∧
      twoStarts.contexts = .ok contexts ∧
      ∃ state first second,
        build 2 1 twoStarts [false] = .error (.nonDeterministic state first second) ∧
        (ofContexts ⟨2, 1, twoStarts.lookahead, [false]⟩ contexts).Overlap state first second := by
  refine ⟨_, _, _, rfl, rfl, rfl, rfl, ?_⟩
  have hContexts : twoStarts.contexts = .ok _ := rfl
  obtain ⟨_, hOverlap, _⟩ := @build_overlap_exact 2 1 twoStarts [false] _ rfl rfl rfl hContexts
  obtain ⟨state, first, second, hError, hFirst, _⟩ := hOverlap ⟨0,
    ⟨0, 0, [[⟨[.one, .one], .any, .zero⟩, ⟨[.one, .any], .any, .any⟩]],
      [[[false, false], [true, true]]], [true], [true, true],
      [some ⟨0, 0, 0⟩, some ⟨0, 0, 1⟩], false⟩, by decide,
    ⟨0, 0, [[⟨[.one, .one], .any, .zero⟩, ⟨[.any, .any], .any, .any⟩]],
      [[[false, true], [true, true]]], [true], [false, true],
      [none, some ⟨0, 0, 0⟩], false⟩, by decide, by decide,
    [[⟨[true, true], false, false⟩, ⟨[true, true], false, true⟩]], by decide, by decide⟩
  exact ⟨state, first, second, hError, hFirst⟩

end Table

end StreamSplice
