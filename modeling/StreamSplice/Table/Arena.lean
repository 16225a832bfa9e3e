import StreamSplice.Table.Basic

/-! The transitions of all states in one list. Every state owns a range of the list, and the
ranges follow each other without gaps, so that a state is found by two positions. -/
namespace StreamSplice

/-- The transitions of the states that were added so far. -/
structure Arena where
  items : List Transition
  /-- Where the range of each state starts and ends. -/
  ranges : List (Nat × Nat)

namespace Arena

/-- Add a state: its transitions go to the end of the list. -/
def addState (arena : Arena) (transitions : SortedSet Transition) : Arena where
  items := arena.items ++ transitions.toList
  ranges := arena.ranges ++ [(arena.items.length, (arena.items ++ transitions.toList).length)]

/-- The transitions of all states, added in state order. -/
def ofStates (states : List (SortedSet Transition)) : Arena := states.foldl addState ⟨[], []⟩

/-- The items of a range. There are none in a range that is not one of the list. -/
def slice (arena : Arena) : Nat × Nat → List Transition
  | (start, stop) =>
      if start ≤ stop ∧ stop ≤ arena.items.length then (arena.items.take stop).drop start else []

/-- Transitions out of `state`; an unknown state has none. -/
def transitions (arena : Arena) (state : Nat) : List Transition :=
  (arena.ranges[state]?.map arena.slice).getD []

end Arena

end StreamSplice
