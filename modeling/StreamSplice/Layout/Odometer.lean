/-! Enumeration of choices by counting. A wheel shows one element of a list, and an odometer is a
row of wheels that shows one element of each list. The last wheel turns first; a wheel that has
shown all of its list starts over and makes the wheel before it turn. -/
namespace StreamSplice

variable {α : Type}

/-- A list of options and the position of the one that is shown. -/
structure Wheel (α : Type) where
  options : List α
  position : Nat
  position_lt : position < options.length

namespace Wheel

/-- The option that is shown. -/
def shown (wheel : Wheel α) : α := wheel.options.get ⟨wheel.position, wheel.position_lt⟩

/-- A wheel that shows the first option. There is none without options. -/
def first? (options : List α) : Option (Wheel α) :=
  if h : 0 < options.length then some ⟨options, 0, h⟩ else none

/-- The wheel showing its next option, if there is one. -/
def advance? (wheel : Wheel α) : Option (Wheel α) :=
  if h : wheel.position + 1 < wheel.options.length then
    some ⟨wheel.options, wheel.position + 1, h⟩
  else none

/-- The wheel showing its first option again. -/
def reset (wheel : Wheel α) : Wheel α :=
  ⟨wheel.options, 0, Nat.zero_lt_of_lt wheel.position_lt⟩

end Wheel

/-- A row of wheels. -/
abbrev Odometer (α : Type) := List (Wheel α)

namespace Odometer

/-- An odometer that shows the first option of each list. One without options stops it before
it shows anything. -/
def start? (lists : List (List α)) : Option (Odometer α) := lists.mapM Wheel.first?

/-- The option that each wheel shows. -/
def shown (odometer : Odometer α) : List α := odometer.map Wheel.shown

/-- The odometer after one turn, unless it has shown everything. -/
def turn? : Odometer α → Option (Odometer α)
  | [] => none
  | wheel :: rest =>
      match turn? rest with
      | some turned => some (wheel :: turned)
      | none => wheel.advance?.map (· :: rest.map Wheel.reset)

end Odometer

end StreamSplice
