import Mathlib.Data.Nat.Find
import StreamSplice.Proofs.Inverting

/-! Sources out of order. The search for contexts goes through the words in the order of their
labels, and fails at the first source that is followed by one of an earlier stream. -/
namespace StreamSplice

open Std Layout

namespace SubState

/-- Whether the source at a position is followed by one of an earlier stream. -/
def DisorderAt (following : Option Source) (sources : List (Option Source)) (outputByte : Nat) :
    Prop :=
  ∃ source after, sources[outputByte]? = some (some source) ∧
    sources[outputByte + 1]?.getD following = some after ∧ after.stream < source.stream

variable {following : Option Source} {cell : Option Source} {sources : List (Option Source)}

theorem disorderAt_zero : DisorderAt following (cell :: sources) 0 ↔
    cell.any fun source => (sources.head?.getD following).any (·.stream < source.stream) := by
  simp [DisorderAt, Option.any_eq_true, List.head?_eq_getElem?]

theorem disorderAt_succ {outputByte : Nat} :
    DisorderAt following (cell :: sources) (outputByte + 1) ↔
      DisorderAt following sources outputByte := Iff.rfl

/-- The reported position is the first one that shows disorder. -/
theorem disorder?_eq_some_iff {first outputByte : Nat} :
    disorder? following first sources = some outputByte ↔
      ∃ position, first + position = outputByte ∧ DisorderAt following sources position ∧
        ∀ earlier < position, ¬DisorderAt following sources earlier := by
  induction sources generalizing first with
  | nil => simp [disorder?, DisorderAt]
  | cons cell rest ih =>
      rw [disorder?]
      split
      · next hHead =>
          have hZero := disorderAt_zero.mpr hHead
          constructor
          · rintro ⟨⟩
            exact ⟨0, rfl, hZero, nofun⟩
          · rintro ⟨position, rfl, _, hFirst⟩
            cases position with
            | zero => rfl
            | succ position => exact absurd hZero (hFirst 0 (Nat.succ_pos _))
      · next hHead =>
          have hZero := mt disorderAt_zero.mp hHead
          rw [ih]
          constructor
          · rintro ⟨position, rfl, hAt, hFirst⟩
            refine ⟨position + 1, by omega, disorderAt_succ.mpr hAt, fun earlier hEarlier => ?_⟩
            cases earlier with
            | zero => exact hZero
            | succ earlier => exact hFirst earlier (Nat.lt_of_succ_lt_succ hEarlier)
          · rintro ⟨position, rfl, hAt, hFirst⟩
            cases position with
            | zero => exact absurd hAt hZero
            | succ position =>
                refine ⟨position, by omega, hAt, fun earlier hEarlier => ?_⟩
                exact hFirst (earlier + 1) (Nat.succ_lt_succ hEarlier)

theorem disorder?_eq_none_iff {first : Nat} :
    disorder? following first sources = none ↔
      ∀ outputByte, ¬DisorderAt following sources outputByte := by
  classical
  constructor
  · intro hNone outputByte hAt
    have hFirst : disorder? following first sources = some (first + Nat.find ⟨outputByte, hAt⟩) :=
      disorder?_eq_some_iff.mpr ⟨_, rfl, Nat.find_spec ⟨outputByte, hAt⟩, fun _ => Nat.find_min _⟩
    cases hNone.symm.trans hFirst
  · intro hNone
    cases hFirst : disorder? following first sources with
    | none => rfl
    | some outputByte =>
        obtain ⟨position, _, hAt, _⟩ := disorder?_eq_some_iff.mp hFirst
        exact absurd hAt (hNone position)

/-- Two words that take a byte from some stream leave nothing to report but disorder. -/
theorem context_eq_error_iff {s : SubState} {wordBytes : Nat} {previous next : Option SubState}
    {e : Violation} (hState : ∃ state, s.state = .ok state)
    (hNext : ∃ state, next.elim (pure 0) SubState.state = .ok state) :
    s.context wordBytes previous next = .error e ↔
      ∃ outputByte, disorder? (next.bind (·.sources.head?.join)) 0 s.sources = some outputByte ∧
        e = .streamOrder s.label outputByte := by
  obtain ⟨state, hState⟩ := hState
  obtain ⟨nextState, hNext⟩ := hNext
  simp only [context, hNext, hState, bind, Except.bind]
  cases disorder? (next.bind (·.sources.head?.join)) 0 s.sources with
  | none => simp [pure, Except.pure]
  | some outputByte => simp [throw, throwThe, MonadExceptOf.throw, eq_comm]

/-- A word that takes a byte from some stream has a context unless its sources show disorder. -/
theorem exists_context_iff {s : SubState} {wordBytes : Nat} {previous next : Option SubState}
    (hState : ∃ state, s.state = .ok state)
    (hNext : ∃ state, next.elim (pure 0) SubState.state = .ok state) :
    (∃ context, s.context wordBytes previous next = .ok context) ↔
      disorder? (next.bind (·.sources.head?.join)) 0 s.sources = none := by
  obtain ⟨state, hState⟩ := hState
  obtain ⟨nextState, hNext⟩ := hNext
  constructor
  · rintro ⟨_, hContext⟩
    obtain ⟨_, _, _, _, hOrder, _⟩ := context_eq_ok.mp hContext
    exact hOrder
  · intro hOrder
    exact ⟨_, context_eq_ok.mpr ⟨state, nextState, hState, hNext, hOrder, rfl⟩⟩

end SubState

namespace Inversion

/-- The first position of a word at which disorder shows, the next word included. -/
def firstDisorder? (subStates : SubStates) (label : WordLabel) (s : SubState) : Option Nat :=
  SubState.disorder? (subStates[label.next]?.bind (·.sources.head?.join)) 0 s.sources

section Contexts

variable {wordBytes streamCount : Nat} {layouts : List Layout} {inversion : Inversion}
  {subStates : SubStates}
  (h : ofLayouts wordBytes layouts streamCount = .ok inversion)
  (hStates : inversion.subStates = .ok subStates)

include h hStates

/-- Every sub-state takes a byte from some stream. -/
theorem exists_state {label : WordLabel} {s : SubState} (hFound : subStates[label]? = some s) :
    ∃ state, s.state = .ok state := by
  obtain ⟨cells, _, hSources, origin, hByte⟩ := exists_word_of_subState h hStates hFound
  obtain ⟨state, hLeast⟩ := exists_leastStream? hByte
  exact ⟨state, state_of_sources hSources hLeast⟩

theorem exists_nextState (label : WordLabel) :
    ∃ state, subStates[label]?.elim (pure 0) SubState.state = .ok state := by
  cases hFound : subStates[label]? with
  | none => exact ⟨0, rfl⟩
  | some s => exact exists_state h hStates hFound

/-- The search for contexts fails at the first word that shows disorder. -/
theorem contexts_eq_error_iff {e : Violation} :
    inversion.contexts = .error e ↔ ∃ label s, subStates[label]? = some s ∧
      (∃ outputByte, firstDisorder? subStates label s = some outputByte ∧
        e = .streamOrder label outputByte) ∧
      ∀ earlier s', subStates[earlier]? = some s' → compare earlier label = .lt →
        firstDisorder? subStates earlier s' = none := by
  have hPass : inversion.contexts = .error e ↔
      subStates.toList.mapM (fun word => word.2.context inversion.wordBytes
        (previous? subStates word.1) subStates[word.1.next]?) = .error e := by
    rw [contexts, hStates]
    exact SortedSet.collect_eq_error_iff
  rw [hPass, mapM_eq_error_iff_of_pairwise
    (fun a b hLt hGt => by simp [OrientedCmp.gt_of_lt hLt] at hGt) TreeMap.ordered_keys_toList]
  simp only [Prod.exists, Prod.forall, TreeMap.mem_toList_iff_getElem?_eq_some]
  refine exists_congr fun label => exists_congr fun s => and_congr_right fun hFound => ?_
  refine and_congr ?_ (forall_congr' fun earlier => forall_congr' fun s' => ?_)
  · rw [SubState.context_eq_error_iff (exists_state h hStates hFound)
      (exists_nextState h hStates label.next), label_of_subStates hStates hFound]
    rfl
  · refine forall_congr' fun hFound' => imp_congr_right fun _ => ?_
    exact SubState.exists_context_iff (exists_state h hStates hFound')
      (exists_nextState h hStates earlier.next)

end Contexts

end Inversion

end StreamSplice
