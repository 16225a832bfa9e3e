import Std.Data.TreeSet.Lemmas

/-! Orders that compare values field by field. Equality under such an order is equality
of all the fields compared. -/
namespace StreamSplice

open Std

variable {α β : Type} {a b : α}

/-- Values that compare equal by two criteria compare equal by each of them. -/
theorem compareLex_eq_iff {first second : α → α → Ordering} :
    compareLex first second a b = .eq ↔ first a b = .eq ∧ second a b = .eq :=
  Ordering.then_eq_eq

/-- Values that compare equal by a field have the same field. -/
theorem compareOn_eq_iff [Ord β] [LawfulEqOrd β] {field : α → β} :
    compareOn field a b = .eq ↔ field a = field b :=
  ⟨fun h => LawfulEqOrd.eq_of_compare h, fun h => by
    show compare (field a) (field b) = .eq
    rw [h]
    exact ReflOrd.compare_self⟩

end StreamSplice
