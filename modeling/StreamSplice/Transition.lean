import StreamSplice.Guard

/-! Transitions of the join machine. A transition is guarded by the registers of
every stream, routes register bytes to output bytes, and clears the bytes it has
consumed. Register data is indexed by stream, then by pipeline stage, then by byte. -/
namespace StreamSplice

open Std

/-- Selection of an input byte by the multiplexer of an output byte. -/
structure Selection where
  stream : Nat
  /-- Pipeline stage holding the byte. -/
  stage : Nat
  byte : Nat
  deriving DecidableEq, Repr

namespace Selection

instance : Ord Selection :=
  ⟨compareLex (compareOn stream) <| compareLex (compareOn stage) (compareOn byte)⟩

instance : TransOrd Selection :=
  inferInstanceAs <| TransCmp <|
    compareLex (compareOn stream) <| compareLex (compareOn stage) (compareOn byte)

instance : LawfulEqOrd Selection where
  eq_of_compare {a b} h := by
    have hFields := compareLex_eq_iff.mp h
    simp only [compareLex_eq_iff, compareOn_eq_iff] at hFields
    cases a
    cases b
    simp_all

/-- Stream, stage and byte, separated by points. -/
def text (selection : Selection) : String :=
  s!"{selection.stream}.{selection.stage}.{selection.byte}"

end Selection

/-- One transition of the join machine. -/
structure Transition where
  state : Nat
  nextState : Nat
  /-- Conditions on the registers. -/
  guards : List (List RegisterGuard)
  /-- Masks applied to the registers once the transition fires. A cleared bit marks
  a consumed byte. -/
  keepMasks : List (List (List Bool))
  /-- Streams that the transition reads. -/
  reads : List Bool
  /-- Output bytes that the transition drives. -/
  outputKeep : List Bool
  /-- Source of each output byte. -/
  outputMux : List (Option Selection)
  /-- Whether the output word is the last word of the joined frame. -/
  last : Bool
  deriving DecidableEq, Repr

namespace Transition

/-- Sort key of the selection of an output byte. An unselected byte comes after every
selected one. -/
def muxKey : Option Selection → List Nat
  | some selection => [0, selection.stream, selection.stage, selection.byte]
  | none => [1]

theorem muxKey_injective {a b : Option Selection} (h : muxKey a = muxKey b) : a = b := by
  rcases a with _ | ⟨_, _, _⟩ <;> rcases b with _ | ⟨_, _, _⟩ <;> simp_all [muxKey]

/-- Field by field, lists lexicographically. -/
instance : Ord Transition :=
  ⟨compareLex (compareOn state) <| compareLex (compareOn nextState) <|
    compareLex (compareOn guards) <| compareLex (compareOn keepMasks) <|
    compareLex (compareOn reads) <| compareLex (compareOn outputKeep) <|
    compareLex (compareOn fun t => t.outputMux.map muxKey) (compareOn last)⟩

instance : TransOrd Transition :=
  inferInstanceAs <| TransCmp <|
    compareLex (compareOn state) <| compareLex (compareOn nextState) <|
    compareLex (compareOn guards) <| compareLex (compareOn keepMasks) <|
    compareLex (compareOn reads) <| compareLex (compareOn outputKeep) <|
    compareLex (compareOn fun t => t.outputMux.map muxKey) (compareOn last)

instance : LawfulEqOrd Transition where
  eq_of_compare {a b} h := by
    have hFields := compareLex_eq_iff.mp h
    simp only [compareLex_eq_iff, compareOn_eq_iff] at hFields
    obtain ⟨h₁, h₂, h₃, h₄, h₅, h₆, hMux, h₈⟩ := hFields
    have hMux := (List.map_inj_right fun _ _ => muxKey_injective).mp hMux
    cases a
    cases b
    simp_all

/-- A transition that requires, consumes and produces nothing. `lookahead` holds the
number of pipeline stages beyond the first of each stream. -/
def idle (state nextState : Nat) (last : Bool) (wordBytes : Nat) (lookahead : List Nat) :
    Transition where
  state := state
  nextState := nextState
  guards := lookahead.map fun l => List.replicate (l + 1) (.dontCare wordBytes)
  keepMasks := lookahead.map fun l => List.replicate (l + 1) (List.replicate wordBytes true)
  reads := lookahead.map fun _ => false
  outputKeep := List.replicate wordBytes false
  outputMux := List.replicate wordBytes none
  last := last

/-- Whether an output word is produced. A word without any byte is produced only for
a joined frame made of empty frames alone, and then every stream is read. -/
def outputValid (t : Transition) : Bool := t.outputKeep.any id || t.reads.all id

/-- Whether the guards hold for the registers of every stream. -/
def isEnabled (t : Transition) (registers : List (List Register)) : Bool :=
  t.guards.length == registers.length &&
    (t.guards.zip registers).all fun (guards, values) =>
      guards.length == values.length &&
        (guards.zip values).all fun (guard, value) => guard.accepts value

/-- Whether some register is required to hold opposite values. -/
def excludes (t other : Transition) : Bool :=
  (t.guards.zip other.guards).any fun (a, b) =>
    (a.zip b).any fun (g, h) => g.excludes h

/-- The guard of one register. -/
def guard? (t : Transition) (stream stage : Nat) : Option RegisterGuard := do
  (← t.guards[stream]?)[stage]?

/-- Change the guard of one register; a register that is not there stays absent. -/
def modifyGuard (t : Transition) (stream stage : Nat) (f : RegisterGuard → RegisterGuard) :
    Transition :=
  { t with guards := t.guards.modify stream (·.modify stage f) }

/-- Require a value of one keep bit. -/
def requireKeep (t : Transition) (stream stage byte : Nat) (bit : BitGuard) : Transition :=
  t.modifyGuard stream stage fun g => { g with keep := g.keep.set byte bit }

/-- Require an empty last word in the first stage of every stream from `start` up to, but
not including, `stop`, and consume it. -/
def skipEmpty (t : Transition) (start stop : Nat) : Transition :=
  if start < stop then
    let wordBytes := t.outputKeep.length
    let skipped := fun stream => start ≤ stream && stream < stop
    { t with
      guards := t.guards.mapIdx fun stream guards =>
        if skipped stream then guards.set 0 (.emptyLastWord wordBytes) else guards
      keepMasks := t.keepMasks.mapIdx fun stream masks =>
        if skipped stream then masks.set 0 (List.replicate wordBytes false) else masks
      reads := t.reads.mapIdx fun stream read => read || skipped stream }
  else t

end Transition

end StreamSplice
