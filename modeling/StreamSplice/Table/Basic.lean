import StreamSplice.SortedSet
import StreamSplice.Transition

/-! Transition tables. The states of a join machine are numbered, and each holds an
ascending list of transitions without repetitions. -/
namespace StreamSplice

/-- Transitions of every state of a join machine. -/
structure Table where
  wordBytes : Nat
  /-- Number of pipeline stages beyond the first of each stream. -/
  lookahead : List Nat
  /-- Transitions of each state. -/
  states : List (SortedSet Transition)
  deriving DecidableEq

namespace Table

/-- Transitions of all states, in state order. -/
def items (table : Table) : List Transition := table.states.flatMap SortedSet.toList

/-- Transitions out of `state`; an unknown state has none. -/
def transitions (table : Table) (state : Nat) : List Transition :=
  match table.states[state]? with
  | some transitions => transitions.toList
  | none => []

/-- Number of pipeline registers of each stream. -/
def registerCounts (table : Table) : List Nat := table.lookahead.map (· + 1)

/-- Width of a pipeline register: its keep bits, last and relict. -/
def bitsPerRegister (table : Table) : Nat := table.wordBytes + 2

def stateCount (table : Table) : Nat := table.states.length

/-- Bits needed to encode the state. -/
def stateWidth (table : Table) : Nat :=
  match table.stateCount with
  | 0 | 1 => 0
  | n + 2 => Nat.log2 (n + 1) + 1

/-- The transition out of `state` that the registers enable, if any. -/
def select (table : Table) (state : Nat) (registers : List (List Register)) :
    Option Transition :=
  (table.transitions state).find? (·.isEnabled registers)

/-- One cycle: the selected transition, and the state after it. Registers that enable
nothing leave the state as it is. -/
def step (table : Table) (state : Nat) (registers : List (List Register)) :
    Option Transition × Nat :=
  match table.select state registers with
  | some t => (some t, t.nextState)
  | none => (none, state)

/-- The selected transitions of successive cycles, and the state after the last. -/
def walk (table : Table) : (state : Nat) → List (List (List Register)) →
    List (Option Transition) × Nat
  | state, [] => ([], state)
  | state, registers :: rest =>
      let (fired, next) := table.step state registers
      let (later, final) := table.walk next rest
      (fired :: later, final)

/-- Every source selected for an output byte. -/
def byteSources (table : Table) (outputByte : Nat) : SortedSet Selection :=
  .ofList (table.items.filterMap fun t => t.outputMux[outputByte]?.join)

/-- The sources of every output byte. -/
def muxSources (table : Table) : List (SortedSet Selection) :=
  (List.range table.wordBytes).map table.byteSources

/-- Selector code of a selection in the multiplexer of an output byte: its rank among
the sources of the byte. An unselected byte is encoded past the last source. -/
def muxIndex? (table : Table) (outputByte : Nat) (selection : Option Selection) :
    Option Nat :=
  if outputByte < table.wordBytes then
    let sources := (table.byteSources outputByte).toList
    match selection with
    | some s =>
        if s ∈ sources then some (sources.countP fun r => compare r s == .lt) else none
    | none => some sources.length
  else none

/-- The first pair of transitions, in the order of the list, that do not exclude each
other. -/
def overlap? : List Transition → Option (Transition × Transition)
  | [] => none
  | first :: rest =>
      match rest.find? (!first.excludes ·) with
      | some second => some (first, second)
      | none => overlap? rest

end Table

end StreamSplice
