import Mathlib.Order.Bounds.Basic
import StreamSplice.Proofs.SubStates

/-! The first source of an output byte wins. Attempts to drive the bytes of a word are settled byte
by byte: the first one for a byte inside the word succeeds, and every other one fails and changes
nothing. So the sources of the word are those of the first attempts, in whatever order the bytes
are tried. -/
namespace StreamSplice

open Std

/-- The first item of a list that is not of some kind, by what comes before it and by its index. -/
theorem exists_eq_append_iff_getElem? {α : Type} {items : List α} {item : α} {P : α → Prop} :
    (∃ before after, items = before ++ item :: after ∧ ∀ a ∈ before, P a) ↔
      ∃ i : Nat, items[i]? = some item ∧ ∀ j < i, ∀ a, items[j]? = some a → P a := by
  constructor
  · rintro ⟨before, after, rfl, hBefore⟩
    refine ⟨before.length, by simp, ?_⟩
    intro j hj a ha
    rw [List.getElem?_append_left hj] at ha
    exact hBefore a (List.mem_of_getElem? ha)
  · rintro ⟨i, hItem, hBefore⟩
    obtain ⟨hBound, rfl⟩ := List.getElem?_eq_some_iff.mp hItem
    refine ⟨items.take i, items.drop (i + 1), ?_, ?_⟩
    · rw [List.getElem_cons_drop, List.take_append_drop]
    · intro a ha
      obtain ⟨j, hj, rfl⟩ := List.mem_take_iff_getElem.mp ha
      exact hBefore j (by omega) _ (List.getElem?_eq_getElem _)

namespace SubState

variable {s : SubState} {outputByte : Nat} {source : Source} {attempts : List (Nat × Source)}

theorem attempt_of_free (h : s.sources[outputByte]? = some none) :
    s.attempt outputByte source =
      (.ok (), { s with sources := s.sources.set outputByte (some source) }) := by
  simp only [attempt, assign, h]

theorem attempt_of_taken (h : s.sources[outputByte]? ≠ some none) :
    s.attempt outputByte source = (.error (.duplicateSource s.label outputByte), s) := by
  have hAssign : s.assign outputByte source = .error (.duplicateSource s.label outputByte) := by
    rw [assign]
    split
    · next hFree => exact absurd hFree h
    · rfl
  rw [attempt, hAssign]

theorem fst_attempt_eq_ok :
    (s.attempt outputByte source).1 = .ok () ↔ s.sources[outputByte]? = some none := by
  by_cases h : s.sources[outputByte]? = some none
  · simp [attempt_of_free h, h]
  · simp [attempt_of_taken h, h]

theorem label_attempt (s : SubState) (outputByte : Nat) (source : Source) :
    (s.attempt outputByte source).2.label = s.label := by
  by_cases h : s.sources[outputByte]? = some none
  · rw [attempt_of_free h]
  · rw [attempt_of_taken h]

/-- An attempt drives its output byte if the byte is there and nothing drives it yet, and no other
byte is affected. -/
theorem getElem?_sources_attempt (s : SubState) (outputByte : Nat) (source : Source) (k : Nat) :
    (s.attempt outputByte source).2.sources[k]? =
      s.sources[k]?.map (·.or (if k = outputByte then some source else none)) := by
  by_cases hFree : s.sources[outputByte]? = some none
  · rw [attempt_of_free hFree, List.getElem?_set]
    by_cases hSame : outputByte = k
    · subst hSame
      rw [if_pos rfl, if_pos (List.getElem?_eq_some_iff.mp hFree).1, hFree, if_pos rfl]
      rfl
    · simp [hSame, Ne.symm hSame]
  · rw [attempt_of_taken hFree]
    cases hCell : s.sources[k]? with
    | none => rfl
    | some cell =>
        cases cell with
        | some taken => rfl
        | none =>
            have hOther : k ≠ outputByte := fun hSame => hFree (hSame ▸ hCell)
            simp [hOther]

theorem free_attempt_iff {k : Nat} :
    (s.attempt outputByte source).2.sources[k]? = some none ↔
      s.sources[k]? = some none ∧ k ≠ outputByte := by
  rw [getElem?_sources_attempt, Option.map_eq_some_iff]
  by_cases hSame : k = outputByte <;> simp [hSame]

theorem attemptAll_cons (s : SubState) (head : Nat × Source) (rest : List (Nat × Source)) :
    s.attemptAll (head :: rest) =
      ((s.attempt head.1 head.2).1 :: ((s.attempt head.1 head.2).2.attemptAll rest).1,
        ((s.attempt head.1 head.2).2.attemptAll rest).2) :=
  rfl

theorem length_attemptAll (s : SubState) (attempts : List (Nat × Source)) :
    (s.attemptAll attempts).1.length = attempts.length := by
  induction attempts generalizing s with
  | nil => rfl
  | cons head rest ih => rw [attemptAll_cons, List.length_cons, ih, List.length_cons]

theorem label_attemptAll (s : SubState) (attempts : List (Nat × Source)) :
    (s.attemptAll attempts).2.label = s.label := by
  induction attempts generalizing s with
  | nil => rfl
  | cons head rest ih => rw [attemptAll_cons, ih, label_attempt]

/-- A byte that nothing drives yet gets the source of the first attempt for it. -/
theorem getElem?_sources_attemptAll (s : SubState) (attempts : List (Nat × Source)) (k : Nat) :
    (s.attemptAll attempts).2.sources[k]? = s.sources[k]?.map (·.or (attempts.lookup k)) := by
  induction attempts generalizing s with
  | nil => simp [attemptAll]
  | cons head rest ih =>
      obtain ⟨byte, first⟩ := head
      have hLookup : ((byte, first) :: rest).lookup k =
          (if k = byte then some first else none).or (rest.lookup k) := by
        rw [List.lookup_cons]
        by_cases hSame : k = byte
        · simp [hSame]
        · simp [hSame, beq_eq_false_iff_ne.mpr hSame]
      -- What the byte held, the head and the rest are asked for a source in this order.
      rw [attemptAll_cons, ih, getElem?_sources_attempt, Option.map_map, hLookup]
      congr 1
      funext cell
      exact Option.or_assoc

/-- All attempts succeed exactly if they are for distinct bytes that are free. -/
theorem forall_fst_attemptAll_eq_ok (s : SubState) (attempts : List (Nat × Source)) :
    (∀ outcome ∈ (s.attemptAll attempts).1, outcome = .ok ()) ↔
      (∀ attempt ∈ attempts, s.sources[attempt.1]? = some none) ∧
        (attempts.map Prod.fst).Nodup := by
  induction attempts generalizing s with
  | nil => simp [attemptAll]
  | cons head rest ih =>
      rw [attemptAll_cons, List.forall_mem_cons, List.forall_mem_cons, List.map_cons,
        List.nodup_cons, ih, fst_attempt_eq_ok]
      simp only [free_attempt_iff, List.mem_map, not_exists, not_and]
      constructor
      · rintro ⟨hHead, hRest, hDistinct⟩
        exact ⟨⟨hHead, fun attempt hMem => (hRest attempt hMem).1⟩,
          fun attempt hMem => (hRest attempt hMem).2, hDistinct⟩
      · rintro ⟨⟨hHead, hRest⟩, hOther, hDistinct⟩
        exact ⟨hHead, fun attempt hMem => ⟨hRest attempt hMem, hOther attempt hMem⟩, hDistinct⟩

/-- The word is left with the sources of the first attempts. -/
theorem snd_attemptAll_blank (label : WordLabel) (wordBytes : Nat)
    (attempts : List (Nat × Source)) :
    ((blank label wordBytes).attemptAll attempts).2 =
      ⟨label, (List.range wordBytes).map fun k => attempts.lookup k⟩ := by
  have hSources : ((blank label wordBytes).attemptAll attempts).2.sources =
      (List.range wordBytes).map fun k => attempts.lookup k := by
    apply List.ext_getElem?
    intro k
    rw [getElem?_sources_attemptAll, blank, List.getElem?_replicate, List.getElem?_map]
    by_cases hInside : k < wordBytes
    · simp [hInside]
    · simp [hInside]
  calc ((blank label wordBytes).attemptAll attempts).2
      = ⟨((blank label wordBytes).attemptAll attempts).2.label,
          ((blank label wordBytes).attemptAll attempts).2.sources⟩ := rfl
    _ = ⟨label, (List.range wordBytes).map fun k => attempts.lookup k⟩ := by
        rw [label_attemptAll, hSources]
        rfl

/-- What an attempt comes to depends on what the attempts before it left. -/
theorem attemptAll_take_succ {i : Nat} (h : attempts[i]? = some (outputByte, source)) :
    (s.attemptAll attempts).1[i]? =
        some ((s.attemptAll (attempts.take i)).2.attempt outputByte source).1 ∧
      (s.attemptAll (attempts.take (i + 1))).2 =
        ((s.attemptAll (attempts.take i)).2.attempt outputByte source).2 := by
  induction attempts generalizing s i with
  | nil => cases h
  | cons head rest ih =>
      cases i with
      | zero =>
          cases h
          exact ⟨rfl, rfl⟩
      | succ i => exact ih h

/-- Whether no attempt before an index is for an output byte. -/
def Untried (attempts : List (Nat × Source)) (i outputByte : Nat) : Prop :=
  ∀ j < i, ∀ other, attempts[j]? ≠ some (outputByte, other)

/-- Whether an attempt is the first one for its output byte. -/
def FirstAttempt (attempts : List (Nat × Source)) (i outputByte : Nat) (source : Source) : Prop :=
  attempts[i]? = some (outputByte, source) ∧ Untried attempts i outputByte

theorem untried_iff_forall_ne {i : Nat} : Untried attempts i outputByte ↔
    ∀ j < i, ∀ attempt, attempts[j]? = some attempt → (outputByte != attempt.1) = true := by
  constructor
  · rintro h j hj ⟨byte, other⟩ hAttempt
    rw [bne_iff_ne]
    rintro rfl
    exact h j hj other hAttempt
  · intro h j hj other hAttempt
    simpa using h j hj _ hAttempt

/-- The first attempt for an output byte is found by looking the byte up. -/
theorem lookup_eq_some_iff_firstAttempt : attempts.lookup outputByte = some source ↔
    ∃ i, FirstAttempt attempts i outputByte source := by
  rw [List.lookup_eq_some_iff, exists_eq_append_iff_getElem?]
  simp only [FirstAttempt, untried_iff_forall_ne]

theorem lookup_take_eq_none_iff {i : Nat} :
    (attempts.take i).lookup outputByte = none ↔ Untried attempts i outputByte := by
  rw [List.lookup_eq_none_iff, untried_iff_forall_ne]
  constructor
  · intro h j hj attempt hAttempt
    apply h attempt
    exact List.mem_of_getElem? ((List.getElem?_take_of_lt hj).trans hAttempt)
  · intro h attempt hMem
    obtain ⟨j, hj, rfl⟩ := List.mem_take_iff_getElem.mp hMem
    exact h j (by omega) _ (List.getElem?_eq_getElem _)

/-- If no output byte is tried twice, every attempt is the first one for its byte. -/
theorem lookup_eq_some_iff_mem (hDistinct : (attempts.map Prod.fst).Nodup) :
    attempts.lookup outputByte = some source ↔ (outputByte, source) ∈ attempts := by
  rw [List.lookup_eq_some_iff]
  constructor
  · rintro ⟨before, after, rfl, _⟩
    exact List.mem_append_right _ List.mem_cons_self
  · intro hMem
    obtain ⟨before, after, rfl⟩ := List.append_of_mem hMem
    refine ⟨before, after, rfl, fun earlier hEarlier => ?_⟩
    rw [List.map_append, List.map_cons] at hDistinct
    have hOther := (List.nodup_append.mp hDistinct).2.2 earlier.1 (List.mem_map_of_mem hEarlier)
      outputByte List.mem_cons_self
    exact bne_iff_ne.mpr hOther.symm

/-- Attempts for distinct output bytes leave the same sub-state in whatever order they are made. -/
theorem snd_attemptAll_blank_of_perm (label : WordLabel) (wordBytes : Nat)
    {attempts reordered : List (Nat × Source)} (hDistinct : (attempts.map Prod.fst).Nodup)
    (hPerm : attempts.Perm reordered) :
    ((blank label wordBytes).attemptAll attempts).2 =
      ((blank label wordBytes).attemptAll reordered).2 := by
  have hDistinct' : (reordered.map Prod.fst).Nodup := (hPerm.map Prod.fst).nodup_iff.mp hDistinct
  have hLookup : ∀ k, attempts.lookup k = reordered.lookup k := by
    intro k
    apply Option.ext
    intro source
    rw [lookup_eq_some_iff_mem hDistinct, lookup_eq_some_iff_mem hDistinct', hPerm.mem_iff]
  rw [snd_attemptAll_blank, snd_attemptAll_blank]
  simp only [hLookup]

/-- Whether a sub-state holds a source for an output byte. -/
def Holds (s : SubState) (outputByte : Nat) (source : Source) : Prop :=
  s.sources[outputByte]? = some (some source)

theorem exists_holds_iff_mem : (∃ k, s.Holds k source) ↔ some source ∈ s.sources :=
  List.mem_iff_getElem?.symm

theorem state_eq_ok_iff_isLeast {stream : Nat} : s.state = .ok stream ↔
    IsLeast {stream | ∃ k source, s.Holds k source ∧ source.stream = stream} stream := by
  rw [state_eq_ok]
  simp only [← exists_holds_iff_mem]
  constructor
  · rintro ⟨⟨source, ⟨k, hHeld⟩, rfl⟩, hLeast⟩
    refine ⟨⟨k, source, hHeld, rfl⟩, ?_⟩
    rintro _ ⟨k', source', hHeld', rfl⟩
    exact hLeast source' ⟨k', hHeld'⟩
  · rintro ⟨⟨k, source, hHeld, rfl⟩, hLeast⟩
    refine ⟨⟨source, ⟨k, hHeld⟩, rfl⟩, ?_⟩
    rintro source' ⟨k', hHeld'⟩
    exact hLeast ⟨k', source', hHeld', rfl⟩

/-- A sub-state has no state if it holds no source. -/
theorem state_eq_error {violation : Violation} : s.state = .error violation ↔
    violation = .emptySubState s.label ∧ ∀ k source, ¬s.Holds k source := by
  have hEmpty : (∀ k source, ¬s.Holds k source) ↔ s.driven = [] := by
    rw [driven, List.filterMap_eq_nil_iff]
    constructor
    · intro h cell hMem
      cases cell with
      | none => rfl
      | some source =>
          obtain ⟨k, hHeld⟩ := exists_holds_iff_mem.mpr hMem
          exact absurd hHeld (h k source)
    · intro h k source hHeld
      cases h _ (exists_holds_iff_mem.mp ⟨k, hHeld⟩)
  rw [hEmpty, state]
  cases hDriven : s.driven with
  | nil => simp [eq_comm]
  | cons first rest => simp [List.min?_cons]

/-- The first source is the one at the least output byte that is driven. -/
theorem firstSource?_eq_some_iff : s.firstSource? = some source ↔
    ∃ k, s.Holds k source ∧ ∀ j < k, ∀ other, ¬s.Holds j other := by
  rw [firstSource?, driven, List.head?_filterMap, List.findSome?_eq_some_iff]
  constructor
  · rintro ⟨before, cell, after, hSources, rfl, hBefore⟩
    obtain ⟨k, hHeld, hEarlier⟩ :=
      exists_eq_append_iff_getElem?.mp ⟨before, after, hSources, hBefore⟩
    refine ⟨k, hHeld, fun j hj other hOther => ?_⟩
    cases hEarlier j hj _ hOther
  · rintro ⟨k, hHeld, hEarlier⟩
    have hNone : ∀ j < k, ∀ cell, s.sources[j]? = some cell → id cell = none := by
      intro j hj cell hCell
      cases cell with
      | none => rfl
      | some other => exact absurd hCell (hEarlier j hj other)
    obtain ⟨before, after, hSources, hBefore⟩ :=
      exists_eq_append_iff_getElem?.mpr ⟨k, hHeld, hNone⟩
    exact ⟨before, _, after, hSources, rfl, hBefore⟩

/-- The sub-state that the first attempts leave of a fresh word. -/
def afterAttempts (label : WordLabel) (wordBytes : Nat) (attempts : List (Nat × Source))
    (count : Nat) : SubState :=
  ((blank label wordBytes).attemptAll (attempts.take count)).2

/-- An output byte of a fresh word is free as long as no attempt was for it. -/
theorem free_afterAttempts_iff {label : WordLabel} {wordBytes i : Nat} :
    (afterAttempts label wordBytes attempts i).sources[outputByte]? = some none ↔
      outputByte < wordBytes ∧ Untried attempts i outputByte := by
  rw [← lookup_take_eq_none_iff, afterAttempts, snd_attemptAll_blank, List.getElem?_map,
    Option.map_eq_some_iff]
  by_cases hInside : outputByte < wordBytes
  · simp [hInside]
  · simp [hInside]

theorem fst_attemptAll_blank_eq_ok {label : WordLabel} {wordBytes i : Nat}
    (hAttempt : attempts[i]? = some (outputByte, source)) :
    ((blank label wordBytes).attemptAll attempts).1[i]? = some (.ok ()) ↔
      outputByte < wordBytes ∧ Untried attempts i outputByte := by
  rw [(attemptAll_take_succ hAttempt).1, Option.some.injEq, fst_attempt_eq_ok]
  exact free_afterAttempts_iff

/-- A fresh word holds the sources of the first attempts for the bytes inside it. -/
theorem holds_attemptAll_blank {label : WordLabel} {wordBytes : Nat} :
    ((blank label wordBytes).attemptAll attempts).2.Holds outputByte source ↔
      outputByte < wordBytes ∧ ∃ i, FirstAttempt attempts i outputByte source := by
  rw [← lookup_eq_some_iff_firstAttempt, Holds, snd_attemptAll_blank]
  by_cases hInside : outputByte < wordBytes
  · simp [hInside]
  · simp [hInside]

/-- What attempts to drive the bytes of a fresh word come to if the first source of a byte wins:
the outcomes, and the sub-state after the last. -/
structure FirstSourceWins (label : WordLabel) (wordBytes : Nat) (attempts : List (Nat × Source))
    (outcomes : List (Except Violation Unit)) (final : SubState) : Prop where
  length_outcomes : outcomes.length = attempts.length
  succeeds : ∀ (i outputByte : Nat) source, attempts[i]? = some (outputByte, source) →
    (outcomes[i]? = some (.ok ()) ↔ outputByte < wordBytes ∧ Untried attempts i outputByte)
  fails : ∀ (i outputByte : Nat) source, attempts[i]? = some (outputByte, source) →
    outcomes[i]? ≠ some (.ok ()) →
      outcomes[i]? = some (.error (.duplicateSource label outputByte)) ∧
        afterAttempts label wordBytes attempts (i + 1) = afterAttempts label wordBytes attempts i
  final_eq : final = afterAttempts label wordBytes attempts attempts.length
  label_eq : final.label = label
  width : final.sources.length = wordBytes
  holds : ∀ outputByte source, final.Holds outputByte source ↔
    outputByte < wordBytes ∧ ∃ i, FirstAttempt attempts i outputByte source
  state : ∀ stream, final.state = .ok stream ↔
    IsLeast {stream | ∃ k source, final.Holds k source ∧ source.stream = stream} stream
  no_state : ∀ violation, final.state = .error violation ↔
    violation = .emptySubState label ∧ ∀ k source, ¬final.Holds k source
  first : ∀ source, final.firstSource? = some source ↔
    ∃ k, final.Holds k source ∧ ∀ j < k, ∀ other, ¬final.Holds j other
  reordered : ∀ reordered : List (Nat × Source), (attempts.map Prod.fst).Nodup →
    attempts.Perm reordered → ((blank label wordBytes).attemptAll reordered).2 = final

/-- The first source of an output byte wins. -/
theorem attemptAll_firstSourceWins (label : WordLabel) (wordBytes : Nat)
    (attempts : List (Nat × Source)) :
    FirstSourceWins label wordBytes attempts
      ((blank label wordBytes).attemptAll attempts).1
      ((blank label wordBytes).attemptAll attempts).2 where
  length_outcomes := length_attemptAll ..
  succeeds _ _ _ hAttempt := fst_attemptAll_blank_eq_ok hAttempt
  fails i outputByte source hAttempt hFailed := by
    obtain ⟨hOutcome, hNext⟩ := attemptAll_take_succ (s := blank label wordBytes) hAttempt
    rw [hOutcome, Ne, Option.some.injEq, fst_attempt_eq_ok] at hFailed
    rw [attempt_of_taken hFailed] at hOutcome hNext
    rw [label_attemptAll] at hOutcome
    exact ⟨hOutcome, hNext⟩
  final_eq := by rw [afterAttempts, List.take_length]
  label_eq := label_attemptAll ..
  width := by rw [snd_attemptAll_blank, List.length_map, List.length_range]
  holds _ _ := holds_attemptAll_blank
  state _ := state_eq_ok_iff_isLeast
  no_state _ := by rw [state_eq_error, label_attemptAll]; rfl
  first _ := firstSource?_eq_some_iff
  reordered _ hDistinct hPerm :=
    (snd_attemptAll_blank_of_perm label wordBytes hDistinct hPerm).symm

/-- A byte of the first of two streams. -/
def leadingSource : Source := ⟨0, 0, 1, true⟩

/-- A byte of the second of two streams. -/
def trailingSource : Source := ⟨1, 0, 0, true⟩

/-- Attempts on a word of two bytes, of which the second tries a byte again and the third one a
byte outside the word. -/
def contendedAttempts : List (Nat × Source) :=
  [(1, leadingSource), (1, trailingSource), (2, trailingSource), (0, trailingSource)]

theorem attemptAll_firstSourceWins_contended :
    FirstSourceWins ⟨1, 0⟩ 2 contendedAttempts
        [.ok (), .error (.duplicateSource ⟨1, 0⟩ 1), .error (.duplicateSource ⟨1, 0⟩ 2), .ok ()]
        ⟨⟨1, 0⟩, [some trailingSource, some leadingSource]⟩ ∧
      state ⟨⟨1, 0⟩, [some trailingSource, some leadingSource]⟩ = .ok 0 ∧
      ((blank ⟨1, 0⟩ 2).attemptAll
          [(0, trailingSource), (2, trailingSource), (1, leadingSource)]).2 =
        ((blank ⟨1, 0⟩ 2).attemptAll
          [(1, leadingSource), (0, trailingSource), (2, trailingSource)]).2 := by
  refine ⟨attemptAll_firstSourceWins ⟨1, 0⟩ 2 contendedAttempts, rfl, ?_⟩
  exact (attemptAll_firstSourceWins _ _ _).reordered _ (by decide) (by decide)

end SubState

namespace Inversion

variable {wordBytes : Nat} {found next : SubStates} {use : ByteUse} {uses : List ByteUse}

/-- The attempts that uses make on the bytes of one output word. -/
def attemptsOn (label : WordLabel) (uses : List ByteUse) : List (Nat × Source) :=
  (uses.filter (·.label == label)).map fun use => (use.outputByte, use.source)

/-- A use is collected by an attempt on its output word that succeeds. -/
theorem collect_eq_ok_iff_attempt : collect wordBytes found use = .ok next ↔
    ∃ s, (found[use.label]?.getD (.blank use.label wordBytes)).attempt use.outputByte use.source =
      (.ok (), s) ∧ found.insert use.label s = next := by
  simp only [collect_eq_ok, SubState.assign_eq_ok]
  constructor
  · rintro ⟨s, ⟨hFree, rfl⟩, hNext⟩
    exact ⟨_, SubState.attempt_of_free hFree, hNext⟩
  · rintro ⟨s, hAttempt, hNext⟩
    have hFree := SubState.fst_attempt_eq_ok.mp (congrArg Prod.fst hAttempt)
    rw [SubState.attempt_of_free hFree] at hAttempt
    exact ⟨s, ⟨hFree, (congrArg Prod.snd hAttempt).symm⟩, hNext⟩

/-- The collection of uses attempts them word by word, and no attempt fails. -/
theorem attemptAll_of_foldlM (h : uses.foldlM (collect wordBytes) found = .ok next)
    (label : WordLabel) :
    let attempted := (found[label]?.getD (.blank label wordBytes)).attemptAll
      (attemptsOn label uses)
    (∀ outcome ∈ attempted.1, outcome = .ok ()) ∧
      next[label]?.getD (.blank label wordBytes) = attempted.2 := by
  induction uses generalizing found with
  | nil =>
      cases h
      exact ⟨nofun, rfl⟩
  | cons use uses ih =>
      rw [List.foldlM_cons] at h
      obtain ⟨middle, hHead, hTail⟩ := bind_eq_ok.mp h
      obtain ⟨s, hAttempt, rfl⟩ := collect_eq_ok_iff_attempt.mp hHead
      obtain ⟨hOutcomes, hFinal⟩ := ih hTail
      by_cases hLabel : use.label = label
      · subst hLabel
        rw [TreeMap.getElem?_insert_self, Option.getD_some] at hOutcomes hFinal
        have hAttempts : attemptsOn use.label (use :: uses) =
            (use.outputByte, use.source) :: attemptsOn use.label uses := by
          simp [attemptsOn]
        rw [hAttempts, SubState.attemptAll_cons, hAttempt]
        exact ⟨List.forall_mem_cons.mpr ⟨rfl, hOutcomes⟩, hFinal⟩
      · have hOther : compare use.label label ≠ .eq := fun hEq =>
          hLabel (LawfulEqOrd.eq_of_compare hEq)
        rw [TreeMap.getElem?_insert, if_neg hOther] at hOutcomes hFinal
        have hAttempts : attemptsOn label (use :: uses) = attemptsOn label uses := by
          simp [attemptsOn, hLabel]
        rw [hAttempts]
        exact ⟨hOutcomes, hFinal⟩

/-- The sub-state of a word is what the uses on its bytes come to, attempted in any order. -/
theorem getD_subStates_eq_attemptAll {inversion : Inversion} {subStates : SubStates}
    (h : inversion.subStates = .ok subStates) {uses : List ByteUse}
    (hPerm : inversion.uses.toList.Perm uses) (label : WordLabel) :
    subStates[label]?.getD (.blank label inversion.wordBytes) =
      ((SubState.blank label inversion.wordBytes).attemptAll (attemptsOn label uses)).2 := by
  obtain ⟨hOutcomes, hFinal⟩ := attemptAll_of_foldlM h label
  rw [TreeMap.getElem?_emptyc, Option.getD_none] at hOutcomes hFinal
  have hDistinct := ((SubState.forall_fst_attemptAll_eq_ok _ _).mp hOutcomes).2
  have hAttempts : (attemptsOn label inversion.uses.toList).Perm (attemptsOn label uses) :=
    (hPerm.filter _).map _
  rw [hFinal, SubState.snd_attemptAll_blank_of_perm _ _ hDistinct hAttempts]

end Inversion

end StreamSplice
