import Mathlib.Algebra.BigOperators.Group.List.Basic
import Mathlib.Data.List.Nodup
import StreamSplice.Layout.Enumeration
import StreamSplice.Layout.Odometer

/-! Counting enumerates all choices. An odometer shows every choice of one option per list once,
in the order of the list of choices, and then stops. -/
namespace StreamSplice

namespace Odometer

variable {α : Type}

/-- The choices that an odometer shows from a position on, until it stops. -/
inductive Yields : Option (Odometer α) → List (List α) → Prop
  | stop : Yields none []
  | turn {odometer : Odometer α} {later : List (List α)} (h : Yields (turn? odometer) later) :
      Yields (some odometer) (shown odometer :: later)

/-- What is yet to be shown: the choices for the other wheels while the first one stays, then all
choices behind its later options. -/
def remaining : Odometer α → List (List α)
  | [] => [[]]
  | wheel :: rest =>
      (remaining rest).map (wheel.shown :: ·) ++
        (wheel.options.drop (wheel.position + 1)).flatMap fun option =>
          (choices (rest.map Wheel.options)).map (option :: ·)

@[simp]
theorem map_options_reset (odometer : Odometer α) :
    (odometer.map Wheel.reset).map Wheel.options = odometer.map Wheel.options := by
  rw [List.map_map]
  rfl

/-- From the first options on, everything is yet to be shown. -/
theorem remaining_reset (odometer : Odometer α) :
    remaining (odometer.map Wheel.reset) = choices (odometer.map Wheel.options) := by
  induction odometer with
  | nil => rfl
  | cons wheel rest ih =>
      have hFirst : wheel.options = wheel.reset.shown :: wheel.options.drop 1 :=
        List.drop_eq_getElem_cons (Nat.zero_lt_of_lt wheel.position_lt)
      rw [List.map_cons, List.map_cons, remaining, ih, map_options_reset, choices_cons]
      conv => rhs; rw [hFirst, List.flatMap_cons]
      rfl

theorem map_options_turn? {odometer turned : Odometer α} (h : turn? odometer = some turned) :
    turned.map Wheel.options = odometer.map Wheel.options := by
  induction odometer generalizing turned with
  | nil => cases h
  | cons wheel rest ih =>
      rw [turn?] at h
      split at h
      · next later hRest =>
          cases h
          rw [List.map_cons, List.map_cons, ih hRest]
      · obtain ⟨advanced, hAdvance, rfl⟩ := Option.map_eq_some_iff.mp h
        rw [Wheel.advance?] at hAdvance
        split at hAdvance
        · cases hAdvance
          rw [List.map_cons, List.map_cons, map_options_reset]
        · cases hAdvance

/-- What is yet to be shown is what is shown now, and what is yet to be shown after a turn. -/
theorem remaining_eq (odometer : Odometer α) :
    remaining odometer = shown odometer :: (turn? odometer).elim [] remaining := by
  induction odometer with
  | nil => rfl
  | cons wheel rest ih =>
      rw [remaining, ih, turn?, List.map_cons, List.cons_append]
      refine congrArg _ ?_
      cases hRest : turn? rest with
      | some later => simp only [Option.elim, remaining, map_options_turn? hRest]
      | none =>
          simp only [Option.elim, List.map_nil, List.nil_append, Wheel.advance?]
          by_cases hNext : wheel.position + 1 < wheel.options.length
          · simp only [hNext, dite_true, Option.map_some, remaining, remaining_reset,
              map_options_reset]
            rw [List.drop_eq_getElem_cons hNext, List.flatMap_cons]
            rfl
          · simp only [hNext, dite_false, Option.map_none]
            rw [List.drop_eq_nil_of_le (Nat.not_lt.mp hNext)]
            rfl

/-- An odometer shows what is yet to be shown, and stops. -/
theorem yields_remaining (odometer : Odometer α) :
    Yields (some odometer) (remaining odometer) := by
  induction hLength : (remaining odometer).length using Nat.strongRecOn generalizing odometer with
  | ind length ih =>
      have hTurn := remaining_eq odometer
      rw [hTurn]
      refine .turn ?_
      cases hTurned : turn? odometer with
      | none => exact .stop
      | some turned =>
          rw [hTurned, Option.elim] at hTurn
          exact ih _ (by rw [← hLength, hTurn]; exact Nat.lt_succ_self _) turned rfl

/-- An odometer starts with the first options. -/
theorem start?_eq_some {lists : List (List α)} {odometer : Odometer α}
    (h : start? lists = some odometer) :
    odometer.map Wheel.reset = odometer ∧ odometer.map Wheel.options = lists := by
  induction lists generalizing odometer with
  | nil =>
      cases h
      exact ⟨rfl, rfl⟩
  | cons options rest ih =>
      rw [start?, List.mapM_cons] at h
      obtain ⟨wheel, hWheel, h⟩ := Option.bind_eq_some_iff.mp h
      obtain ⟨wheels, hWheels, h⟩ := Option.bind_eq_some_iff.mp h
      cases h
      obtain ⟨hReset, hOptions⟩ := ih hWheels
      rw [Wheel.first?] at hWheel
      split at hWheel
      · cases hWheel
        exact ⟨congrArg _ hReset, congrArg _ hOptions⟩
      · cases hWheel

/-- If some list has no options, there are no choices. -/
theorem choices_eq_nil_of_start? {lists : List (List α)} (h : start? lists = none) :
    choices lists = [] := by
  induction lists with
  | nil => cases h
  | cons options rest ih =>
      cases options with
      | nil => rfl
      | cons option options =>
          cases hRest : start? rest with
          | none => simp [choices_cons, ih hRest]
          | some wheels =>
              rw [start?] at hRest
              simp [start?, Wheel.first?, hRest] at h

/-- An odometer that stops shows one list of choices. -/
theorem Yields.unique {odometer : Option (Odometer α)} {found other : List (List α)}
    (h : Yields odometer found) (hOther : Yields odometer other) : found = other := by
  induction h generalizing other with
  | stop =>
      cases hOther
      rfl
  | turn _ ih =>
      cases hOther with
      | turn hOther => rw [ih hOther]

theorem yields_choices (lists : List (List α)) : Yields (start? lists) (choices lists) := by
  cases hStart : start? lists with
  | none =>
      rw [choices_eq_nil_of_start? hStart]
      exact .stop
  | some odometer =>
      obtain ⟨hReset, hOptions⟩ := start?_eq_some hStart
      rw [← hOptions, ← remaining_reset, hReset]
      exact yields_remaining odometer

/-- An odometer shows all choices, each as often as it is one, and stops. -/
theorem yields_start?_iff {lists shown : List (List α)} :
    Yields (start? lists) shown ↔ shown = choices lists := by
  constructor
  · intro h
    exact h.unique (yields_choices lists)
  · rintro rfl
    exact yields_choices lists

end Odometer

/-- Different options make different choices. -/
theorem nodup_choices {α : Type} {lists : List (List α)}
    (h : ∀ options ∈ lists, options.Nodup) : (choices lists).Nodup := by
  induction lists with
  | nil => exact List.nodup_singleton []
  | cons options rest ih =>
      rw [List.forall_mem_cons] at h
      rw [choices_cons, List.nodup_flatMap]
      refine ⟨fun option _ => (ih h.2).map (List.cons_injective), h.1.imp fun hNe => ?_⟩
      intro choice hFirst hSecond
      obtain ⟨_, _, rfl⟩ := List.mem_map.mp hFirst
      obtain ⟨_, _, hSame⟩ := List.mem_map.mp hSecond
      exact hNe (List.cons.inj hSame).1.symm

/-- There are as many choices as the numbers of options multiply to. -/
theorem length_choices {α : Type} (lists : List (List α)) :
    (choices lists).length = (lists.map List.length).prod := by
  induction lists with
  | nil => rfl
  | cons options rest ih =>
      simp [choices_cons, List.length_flatMap, ih]

/-- Without options in one of the lists there are no choices. -/
theorem choices_eq_nil {α : Type} {lists : List (List α)} (h : [] ∈ lists) :
    choices lists = [] := by
  induction lists with
  | nil => cases h
  | cons options rest ih =>
      rcases List.mem_cons.mp h with rfl | hRest
      · rfl
      · rw [choices_cons, ih hRest]
        simp

end StreamSplice
