import Mathlib.Data.List.Forall2
import StreamSplice.Transition

/-! Exclusion of guards means disjointness. Guards of the same shape that do not exclude
each other bit by bit have a common register, and so do whole transitions: the check of
single positions loses nothing. -/
namespace StreamSplice

section Zip

variable {α β : Type} {accepts : α → β → Prop} {excludes : α → α → Bool} {same : α → α → Prop}

/-- Exclusion at some position of two lists is disjointness of the lists, provided it is
disjointness at every position. -/
theorem any_zip_excludes_iff
    (hItem : ∀ a b, same a b → (excludes a b ↔ ∀ v, ¬(accepts a v ∧ accepts b v)))
    {as bs : List α} (hSame : List.Forall₂ same as bs) :
    ((as.zip bs).any fun (a, b) => excludes a b) ↔
      ∀ vs, ¬(List.Forall₂ accepts as vs ∧ List.Forall₂ accepts bs vs) := by
  induction hSame with
  | nil => simp
  | @cons a b as bs hHead hTail ih =>
      simp only [List.zip_cons_cons, List.any_cons, Bool.or_eq_true, ih, hItem a b hHead]
      constructor
      · rintro (hExcluded | hExcluded) vs ⟨hAs, hBs⟩
        · cases hAs with
          | cons hA _ =>
              cases hBs with
              | cons hB _ => exact hExcluded _ ⟨hA, hB⟩
        · cases hAs with
          | cons _ hAs =>
              cases hBs with
              | cons _ hBs => exact hExcluded _ ⟨hAs, hBs⟩
      · intro hDisjoint
        by_contra hCommon
        simp only [not_or, not_forall, not_not] at hCommon
        obtain ⟨⟨v, hA, hB⟩, vs, hAs, hBs⟩ := hCommon
        exact hDisjoint (v :: vs) ⟨.cons hA hAs, .cons hB hBs⟩

/-- Exclusion does not depend on which of the lists comes first, if it does not at any position. -/
theorem any_zip_excludes_comm (hComm : ∀ a b, excludes a b = excludes b a) (as bs : List α) :
    ((as.zip bs).any fun (a, b) => excludes a b) =
      (bs.zip as).any fun (a, b) => excludes a b := by
  induction as generalizing bs with
  | nil => simp
  | cons a as ih =>
      cases bs with
      | nil => rfl
      | cons b bs => simp only [List.zip_cons_cons, List.any_cons, hComm a b, ih]

/-- A list does not exclude itself, if none of its items does. -/
theorem any_zip_excludes_self (hSelf : ∀ a, excludes a a = false) (as : List α) :
    ((as.zip as).any fun (a, b) => excludes a b) = false := by
  induction as with
  | nil => rfl
  | cons a as ih => simp only [List.zip_cons_cons, List.any_cons, hSelf, ih, Bool.or_self]

theorem map_eq_map_iff_forall₂ {γ : Type} {f : α → γ} {g : β → γ} {as : List α} {bs : List β} :
    as.map f = bs.map g ↔ List.Forall₂ (fun a b => f a = g b) as bs := by
  rw [← List.forall₂_eq_eq_eq, List.forall₂_map_left_iff, List.forall₂_map_right_iff]

/-- Conditions that can be met one by one can be met together. -/
theorem exists_forall₂ (h : ∀ a, ∃ v, accepts a v) (as : List α) :
    ∃ vs, List.Forall₂ accepts as vs := by
  induction as with
  | nil => exact ⟨[], .nil⟩
  | cons a as ih =>
      obtain ⟨v, hHead⟩ := h a
      obtain ⟨vs, hTail⟩ := ih
      exact ⟨v :: vs, .cons hHead hTail⟩

end Zip

namespace BitGuard

theorem exists_accepts (guard : BitGuard) : ∃ value, guard.accepts value := by
  cases guard with
  | zero => exact ⟨false, rfl⟩
  | one => exact ⟨true, rfl⟩
  | any => exact ⟨true, rfl⟩

theorem excludes_self (guard : BitGuard) : guard.excludes guard = false := by
  cases guard <;> rfl

end BitGuard

namespace RegisterGuard

theorem accepts_iff {guard : RegisterGuard} {register : Register} :
    guard.accepts register ↔
      List.Forall₂ (fun bit value => bit.accepts value) guard.keep register.keep ∧
        guard.relict.accepts register.relict ∧ guard.last.accepts register.last := by
  simp only [accepts, bits, Bool.and_eq_true, beq_iff_eq, List.forall₂_iff_zip]
  constructor
  · rintro ⟨hLength, hBits⟩
    rw [List.zip_append hLength, List.all_append, Bool.and_eq_true] at hBits
    simpa [hLength] using hBits
  · rintro ⟨⟨hLength, hKeep⟩, hRelict, hLast⟩
    rw [List.zip_append hLength, List.all_append, Bool.and_eq_true]
    simp only [List.zip_cons_cons, List.zip_nil_right, List.all_cons, List.all_nil, hRelict,
      hLast, List.all_eq_true, hLength, Prod.forall]
    exact ⟨trivial, fun _ _ h => hKeep h, rfl⟩

theorem length_eq_of_accepts {guard : RegisterGuard} {register : Register}
    (h : guard.accepts register) : guard.keep.length = register.keep.length :=
  (accepts_iff.mp h).1.length_eq

theorem exists_accepts (guard : RegisterGuard) : ∃ register, guard.accepts register := by
  obtain ⟨keep, hKeep⟩ := exists_forall₂ BitGuard.exists_accepts guard.keep
  obtain ⟨relict, hRelict⟩ := guard.relict.exists_accepts
  obtain ⟨last, hLast⟩ := guard.last.exists_accepts
  exact ⟨⟨keep, relict, last⟩, accepts_iff.mpr ⟨hKeep, hRelict, hLast⟩⟩

/-- Guards of the same width exclude each other exactly if no register meets both. -/
theorem excludes_iff {guard other : RegisterGuard}
    (hWidth : guard.keep.length = other.keep.length) :
    guard.excludes other ↔
      ∀ register, ¬(guard.accepts register ∧ other.accepts register) := by
  have hBits : ∀ a b : BitGuard, True →
      (a.excludes b ↔ ∀ value, ¬(a.accepts value ∧ b.accepts value)) :=
    fun _ _ _ => BitGuard.excludes_iff
  have hKeep := any_zip_excludes_iff hBits (List.forall₂_iff_zip.mpr ⟨hWidth, fun _ => trivial⟩)
  simp only [excludes, bits, List.zip_append hWidth, List.any_append, Bool.or_eq_true, hKeep,
    List.zip_cons_cons, List.zip_nil_right, List.any_cons, List.any_nil, Bool.or_false,
    BitGuard.excludes_iff, accepts_iff]
  constructor
  · rintro (h | h | h) register ⟨⟨hKeep, hRelict, hLast⟩, hKeep', hRelict', hLast'⟩
    · exact h _ ⟨hKeep, hKeep'⟩
    · exact h _ ⟨hRelict, hRelict'⟩
    · exact h _ ⟨hLast, hLast'⟩
  · intro hDisjoint
    by_contra hCommon
    simp only [not_or, not_forall, not_not] at hCommon
    obtain ⟨⟨keep, hKeep⟩, ⟨relict, hRelict⟩, last, hLast⟩ := hCommon
    exact hDisjoint ⟨keep, relict, last⟩
      ⟨⟨hKeep.1, hRelict.1, hLast.1⟩, hKeep.2, hRelict.2, hLast.2⟩

/-- Guards of different widths have no register in common anyway. -/
theorem not_accepts_of_excludes {guard other : RegisterGuard} (h : guard.excludes other)
    (register : Register) : ¬(guard.accepts register ∧ other.accepts register) := by
  rintro ⟨hGuard, hOther⟩
  have hWidth : guard.keep.length = other.keep.length :=
    (length_eq_of_accepts hGuard).trans (length_eq_of_accepts hOther).symm
  exact (excludes_iff hWidth).mp h register ⟨hGuard, hOther⟩

theorem excludes_comm (guard other : RegisterGuard) :
    guard.excludes other = other.excludes guard :=
  any_zip_excludes_comm BitGuard.excludes_comm guard.bits other.bits

theorem excludes_self (guard : RegisterGuard) : guard.excludes guard = false :=
  any_zip_excludes_self BitGuard.excludes_self guard.bits

end RegisterGuard

namespace Transition

theorem isEnabled_iff {t : Transition} {registers : List (List Register)} :
    t.isEnabled registers ↔
      List.Forall₂ (List.Forall₂ fun guard register => guard.accepts register) t.guards
        registers := by
  simp only [isEnabled, Bool.and_eq_true, beq_iff_eq, List.forall₂_iff_zip, List.all_eq_true,
    Prod.forall]

/-- Number and widths of the guarded registers of each stream. -/
def guardShape (t : Transition) : List (List Nat) :=
  t.guards.map (List.map fun guard => guard.keep.length)

/-- Every guard can be met, each by a register of its own. -/
theorem exists_isEnabled (t : Transition) : ∃ registers, t.isEnabled registers := by
  obtain ⟨registers, h⟩ := exists_forall₂ (exists_forall₂ RegisterGuard.exists_accepts) t.guards
  exact ⟨registers, isEnabled_iff.mpr h⟩

/-- Registers that enable a transition have its shape. -/
theorem shape_of_isEnabled {t : Transition} {registers : List (List Register)}
    (h : t.isEnabled registers) :
    registers.map (List.map fun register => register.keep.length) = t.guardShape :=
  (map_eq_map_iff_forall₂.mpr ((isEnabled_iff.mp h).imp fun _ _ hRow =>
    map_eq_map_iff_forall₂.mpr (hRow.imp fun _ _ => RegisterGuard.length_eq_of_accepts))).symm

/-- Transitions of the same shape exclude each other exactly if no registers enable both. -/
theorem excludes_iff {t other : Transition} (hShape : t.guardShape = other.guardShape) :
    t.excludes other ↔ ∀ registers, ¬(t.isEnabled registers ∧ other.isEnabled registers) := by
  have hWidths : List.Forall₂ (List.Forall₂ fun guard other : RegisterGuard =>
      guard.keep.length = other.keep.length) t.guards other.guards :=
    (map_eq_map_iff_forall₂.mp hShape).imp fun _ _ => map_eq_map_iff_forall₂.mp
  have hGuard : ∀ guard other : RegisterGuard, guard.keep.length = other.keep.length →
      (guard.excludes other ↔ ∀ register, ¬(guard.accepts register ∧ other.accepts register)) :=
    fun _ _ => RegisterGuard.excludes_iff
  have hRow : ∀ guards others : List RegisterGuard, List.Forall₂ (fun guard other =>
      guard.keep.length = other.keep.length) guards others →
      (((guards.zip others).any fun pair => pair.1.excludes pair.2) ↔
        ∀ row, ¬(List.Forall₂ (fun guard register => guard.accepts register = true) guards row ∧
          List.Forall₂ (fun guard register => guard.accepts register = true) others row)) := by
    intro guards others hWidths
    exact any_zip_excludes_iff hGuard hWidths
  simp only [isEnabled_iff]
  exact any_zip_excludes_iff hRow hWidths

/-- Transitions of different shapes are not enabled together anyway. -/
theorem not_isEnabled_of_excludes {t other : Transition} (h : t.excludes other)
    (registers : List (List Register)) :
    ¬(t.isEnabled registers ∧ other.isEnabled registers) := by
  rintro ⟨hEnabled, hEnabled'⟩
  have hShape : t.guardShape = other.guardShape :=
    (shape_of_isEnabled hEnabled).symm.trans (shape_of_isEnabled hEnabled')
  exact (excludes_iff hShape).mp h registers ⟨hEnabled, hEnabled'⟩

theorem excludes_comm (t other : Transition) : t.excludes other = other.excludes t :=
  any_zip_excludes_comm (any_zip_excludes_comm RegisterGuard.excludes_comm) t.guards other.guards

theorem excludes_self (t : Transition) : t.excludes t = false := by
  have hRow : ∀ guards : List RegisterGuard,
      ((guards.zip guards).any fun pair => pair.1.excludes pair.2) = false :=
    any_zip_excludes_self RegisterGuard.excludes_self
  exact @any_zip_excludes_self _ (fun guards others => (guards.zip others).any fun pair =>
    pair.1.excludes pair.2) hRow t.guards

end Transition

/-- A test of two conditions that tells whether no value meets both. The test has to find every
conflict between conditions on values of the same shape. Conditions on values of different shapes
have no value in common, whether the test finds a conflict or not. -/
structure DecidesDisjoint {α β γ : Type} (excludes : α → α → Bool) (accepts : α → β → Bool)
    (shape : α → γ) : Prop where
  sound : ∀ a b, excludes a b → ∀ v, ¬(accepts a v ∧ accepts b v)
  complete : ∀ a b, shape a = shape b → ¬excludes a b → ∃ v, accepts a v ∧ accepts b v
  symmetric : ∀ a b, excludes a b = excludes b a
  irreflexive : ∀ a, ¬excludes a a

/-- Exclusion decides disjointness, of guards as well as of transitions. Those that exclude each
other have no register contents in common, and those of the same shape that do not exclude each
other have some. Exclusion is symmetric, and nothing excludes itself. -/
theorem excludes_decidesDisjoint :
    DecidesDisjoint RegisterGuard.excludes RegisterGuard.accepts (·.keep.length) ∧
      DecidesDisjoint Transition.excludes Transition.isEnabled Transition.guardShape := by
  constructor
  · exact {
      sound := fun _ _ => RegisterGuard.not_accepts_of_excludes
      complete := fun _ _ hWidth hCommon => by
        simpa [RegisterGuard.excludes_iff hWidth] using hCommon
      symmetric := RegisterGuard.excludes_comm
      irreflexive := fun guard => by simp [guard.excludes_self] }
  · exact {
      sound := fun _ _ => Transition.not_isEnabled_of_excludes
      complete := fun _ _ hShape hCommon => by
        simpa [Transition.excludes_iff hShape] using hCommon
      symmetric := Transition.excludes_comm
      irreflexive := fun t => by simp [t.excludes_self] }

/-- A transition that fires on a fresh last word of one byte in the second stage of the only
stream. -/
def onFreshWord : Transition :=
  { Transition.idle 0 0 true 2 [1] with
    guards := [[.dontCare 2, ⟨[.one, .zero], .zero, .one⟩]] }

/-- A transition that fires on the last byte of a word that was begun. -/
def onRemainder : Transition :=
  { Transition.idle 0 0 true 2 [1] with
    guards := [[.dontCare 2, ⟨[.any, .zero], .one, .one⟩]] }

/-- A transition that fires on a full word in the first stage. -/
def onFullWord : Transition :=
  { Transition.idle 0 0 true 2 [1] with
    guards := [[⟨[.one, .one], .any, .zero⟩, .dontCare 2]] }

/-- Only the relict bit of the second stage keeps the first two apart, and the third goes together
with both. -/
theorem excludes_decidesDisjoint_relict :
    onFreshWord.guardShape = onFullWord.guardShape ∧
      onRemainder.guardShape = onFullWord.guardShape ∧ onFreshWord.excludes onRemainder ∧
      (∀ registers, ¬(onFreshWord.isEnabled registers ∧ onRemainder.isEnabled registers)) ∧
      (∃ registers, onFreshWord.isEnabled registers ∧ onFullWord.isEnabled registers) ∧
      ∃ registers, onRemainder.isEnabled registers ∧ onFullWord.isEnabled registers :=
  ⟨by decide, by decide, by decide,
    excludes_decidesDisjoint.2.sound onFreshWord onRemainder (by decide),
    excludes_decidesDisjoint.2.complete onFreshWord onFullWord (by decide) (by decide),
    excludes_decidesDisjoint.2.complete onRemainder onFullWord (by decide) (by decide)⟩

end StreamSplice
