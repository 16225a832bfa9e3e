import StreamSplice.Violation

/-! Sub-states: one output word of one enumerated layout, with the register byte that
feeds each of its output bytes. -/
namespace StreamSplice

open Std

/-- Register byte that feeds an output byte. -/
structure Source where
  stream : Nat
  /-- Pipeline stage holding the byte. -/
  stage : Nat
  /-- Byte within the input word. -/
  byte : Nat
  /-- Whether the input word is the last word of its frame. -/
  inLastWord : Bool
  deriving DecidableEq, Repr

namespace Source

instance : Ord Source :=
  ⟨compareLex (compareOn stream) <| compareLex (compareOn stage) <|
    compareLex (compareOn byte) (compareOn inLastWord)⟩

instance : TransOrd Source :=
  inferInstanceAs <| TransCmp <| compareLex (compareOn stream) <|
    compareLex (compareOn stage) <| compareLex (compareOn byte) (compareOn inLastWord)

instance : LawfulEqOrd Source where
  eq_of_compare {a b} h := by
    have hFields := compareLex_eq_iff.mp h
    simp only [compareLex_eq_iff, compareOn_eq_iff] at hFields
    cases a
    cases b
    simp_all

/-- Selection of the byte by a multiplexer. -/
def selection (source : Source) : Selection := ⟨source.stream, source.stage, source.byte⟩

end Source

/-- The sources of one output word of one layout. -/
structure SubState where
  label : WordLabel
  /-- Source of each output byte, `none` if the byte is not driven. -/
  sources : List (Option Source)
  deriving DecidableEq, Repr

namespace SubState

/-- A sub-state of which no byte is driven yet. -/
def blank (label : WordLabel) (wordBytes : Nat) : SubState :=
  ⟨label, List.replicate wordBytes none⟩

/-- Drive an output byte. The first source of a byte stays; a second one, or a byte
outside of the word, is an error. -/
def assign (s : SubState) (outputByte : Nat) (source : Source) : Except Violation SubState :=
  match s.sources[outputByte]? with
  | some none => .ok { s with sources := s.sources.set outputByte (some source) }
  | _ => .error (.duplicateSource s.label outputByte)

/-- An attempt to drive an output byte: its outcome, and the sub-state after it. An attempt
that fails leaves the sub-state as it was. -/
def attempt (s : SubState) (outputByte : Nat) (source : Source) :
    Except Violation Unit × SubState :=
  match s.assign outputByte source with
  | .ok next => (.ok (), next)
  | .error violation => (.error violation, s)

/-- The outcomes of successive attempts, and the sub-state after the last. -/
def attemptAll (s : SubState) : List (Nat × Source) → List (Except Violation Unit) × SubState
  | [] => ([], s)
  | (outputByte, source) :: rest =>
      let (outcome, next) := s.attempt outputByte source
      let (later, final) := next.attemptAll rest
      (outcome :: later, final)

/-- Sources of the driven bytes, in output order. -/
def driven (s : SubState) : List Source := s.sources.filterMap id

/-- Source of the first driven byte. -/
def firstSource? (s : SubState) : Option Source := s.driven.head?

/-- State of the machine in which the word is assembled: the least advanced stream
that contributes to it. -/
def state (s : SubState) : Except Violation Nat :=
  match (s.driven.map Source.stream).min? with
  | some stream => .ok stream
  | none => .error (.emptySubState s.label)

end SubState

end StreamSplice
