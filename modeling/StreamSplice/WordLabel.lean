import StreamSplice.Order

/-! Names of the output words of enumerated layouts. -/
namespace StreamSplice

open Std

/-- Name of an output word of an enumerated layout. -/
structure WordLabel where
  /-- Index of the layout. -/
  layout : Nat
  /-- Index of the output word within the layout. -/
  word : Nat
  deriving DecidableEq, Repr

namespace WordLabel

instance : Ord WordLabel := ⟨compareLex (compareOn layout) (compareOn word)⟩

instance : TransOrd WordLabel :=
  inferInstanceAs (TransCmp (compareLex (compareOn layout) (compareOn word)))

instance : LawfulEqOrd WordLabel where
  eq_of_compare {a b} h := by
    have hFields := compareLex_eq_iff.mp h
    simp only [compareOn_eq_iff] at hFields
    cases a
    cases b
    simp_all

/-- Labels are ordered by layout, and those of one layout by word. -/
theorem compare_eq_lt_iff {a b : WordLabel} :
    compare a b = .lt ↔ a.layout < b.layout ∨ a.layout = b.layout ∧ a.word < b.word := by
  show (compare a.layout b.layout).then (compare a.word b.word) = .lt ↔ _
  rw [Ordering.then_eq_lt, Nat.compare_eq_lt, Nat.compare_eq_eq, Nat.compare_eq_lt]

/-- Label of the following output word of the same layout. -/
def next (label : WordLabel) : WordLabel := { label with word := label.word + 1 }

def text (label : WordLabel) : String := s!"({label.layout}, {label.word})"

end WordLabel

end StreamSplice
