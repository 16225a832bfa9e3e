/-! Sizes, counts and offsets are 64-bit quantities. Arithmetic is carried out on
natural numbers, and the limit is consulted exactly where exceeding it is
observable: a frame that is too large, a saturating count, a number in a document. A
result beyond the limit where none is expected stops the computation, which then has no
outcome. -/
namespace StreamSplice

/-- The largest size that a description, a count or an offset can express. -/
def maxSize : Nat := 18446744073709551615

/-- A count that stays at the largest size instead of exceeding it. -/
def saturate (n : Nat) : Nat := min n maxSize

/-- The most items that a list can have: nothing takes up more than half of the addresses. -/
def maxLength : Nat := 9223372036854775807

/-- A sum, unless it exceeds the largest size. -/
def sum? (a b : Nat) : Option Nat := if a + b ≤ maxSize then some (a + b) else none

/-- A product, unless it exceeds the largest size. -/
def product? (a b : Nat) : Option Nat := if a * b ≤ maxSize then some (a * b) else none

/-- A difference, unless it is below zero. -/
def difference? (a b : Nat) : Option Nat := if b ≤ a then some (a - b) else none

theorem sum?_eq_some_iff {a b size : Nat} : sum? a b = some size ↔ a + b ≤ maxSize ∧ a + b = size := by
  rw [sum?, Option.ite_none_right_eq_some, Option.some.injEq]

theorem product?_eq_some_iff {a b size : Nat} :
    product? a b = some size ↔ a * b ≤ maxSize ∧ a * b = size := by
  rw [product?, Option.ite_none_right_eq_some, Option.some.injEq]

end StreamSplice
