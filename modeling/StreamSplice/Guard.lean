import StreamSplice.Order

/-! Conditions on the contents of pipeline registers. A register holds one input
word: which of its bytes are valid, whether it is the remainder of a partially
consumed word, and whether it is the last word of its frame. A guard requires a
value of some of these bits and leaves the others open. -/
namespace StreamSplice

open Std

/-- Required value of a single register bit. -/
inductive BitGuard where
  | zero
  | one
  | any
  deriving DecidableEq, Repr, Inhabited

namespace BitGuard

/-- A guard requiring exactly `value`. -/
def exactly (value : Bool) : BitGuard := if value then one else zero

/-- Whether the bit takes part in a guard. -/
def isCare (guard : BitGuard) : Bool := guard ≠ any

def accepts : BitGuard → Bool → Bool
  | zero, value => !value
  | one, value => value
  | any, _ => true

/-- Whether no value satisfies both guards. -/
def excludes : BitGuard → BitGuard → Bool
  | zero, one => true
  | one, zero => true
  | _, _ => false

theorem accepts_exactly (value bit : Bool) : (exactly value).accepts bit = (value == bit) := by
  cases value <;> cases bit <;> rfl

/-- Exclusion of single bits is disjointness. -/
theorem excludes_iff {a b : BitGuard} :
    a.excludes b ↔ ∀ value, ¬(a.accepts value ∧ b.accepts value) := by
  cases a <;> cases b <;> simp [excludes, accepts]

theorem excludes_comm (a b : BitGuard) : a.excludes b = b.excludes a := by
  cases a <;> cases b <;> rfl

/-- Position in the order in which an open bit comes after either value. -/
def rank : BitGuard → Nat
  | zero => 0
  | one => 1
  | any => 2

instance : Ord BitGuard := ⟨compareOn rank⟩

instance : TransOrd BitGuard := inferInstanceAs (TransCmp (compareOn rank))

instance : LawfulEqOrd BitGuard where
  eq_of_compare {a b} h := by
    have hRank := compareOn_eq_iff.mp h
    cases a <;> cases b <;> first | rfl | cases hRank

/-- An open bit is written as `X`. -/
def text : BitGuard → String
  | zero => "0"
  | one => "1"
  | any => "X"

end BitGuard

/-- Concrete contents of one pipeline register. -/
structure Register where
  /-- Validity of each byte. -/
  keep : List Bool
  /-- Whether the register holds the remainder of a partially consumed word. -/
  relict : Bool
  /-- Whether the register holds the last word of a frame. -/
  last : Bool
  deriving DecidableEq, Repr

/-- Condition on the contents of one pipeline register. -/
structure RegisterGuard where
  keep : List BitGuard
  relict : BitGuard
  last : BitGuard
  deriving DecidableEq, Repr

namespace RegisterGuard

/-- By the keep bits, then by relict, then by last. -/
instance : Ord RegisterGuard :=
  ⟨compareLex (compareOn keep) <| compareLex (compareOn relict) (compareOn last)⟩

instance : TransOrd RegisterGuard :=
  inferInstanceAs <| TransCmp <|
    compareLex (compareOn keep) <| compareLex (compareOn relict) (compareOn last)

instance : LawfulEqOrd RegisterGuard where
  eq_of_compare {a b} h := by
    have hFields := compareLex_eq_iff.mp h
    simp only [compareLex_eq_iff, compareOn_eq_iff] at hFields
    cases a
    cases b
    simp_all

/-- A guard accepting any contents. -/
def dontCare (wordBytes : Nat) : RegisterGuard :=
  ⟨List.replicate wordBytes .any, .any, .any⟩

/-- A guard matching an empty last word, which is the whole frame of a stream that
contributes no bytes. -/
def emptyLastWord (wordBytes : Nat) : RegisterGuard :=
  ⟨List.replicate wordBytes .zero, .one, .one⟩

/-- The required bits in a fixed order: keep, relict, last. -/
def bits (guard : RegisterGuard) : List BitGuard :=
  guard.keep ++ [guard.relict, guard.last]

/-- Whether the guard holds for a register. Words of different widths never match. -/
def accepts (guard : RegisterGuard) (register : Register) : Bool :=
  guard.keep.length == register.keep.length &&
    (guard.bits.zip (register.keep ++ [register.relict, register.last])).all
      fun (bit, value) => bit.accepts value

/-- Whether some position requires opposite values. -/
def excludes (guard other : RegisterGuard) : Bool :=
  (guard.bits.zip other.bits).any fun (a, b) => a.excludes b

/-- Whether any bit takes part in the guard. -/
def isCare (guard : RegisterGuard) : Bool := guard.bits.any BitGuard.isCare

/-- Keep bits in byte order, a colon, then relict and last. -/
def text (guard : RegisterGuard) : String :=
  String.join (guard.keep.map BitGuard.text) ++ ":" ++ guard.relict.text ++ guard.last.text

end RegisterGuard

end StreamSplice
