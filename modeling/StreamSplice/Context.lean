import StreamSplice.Inversion

/-! Contexts of output words: everything that the transition assembling a word depends on.
Words of different layouts, or of different frames, that have the same context are
assembled by the same transition, so a machine is determined by the set of its contexts. -/
namespace StreamSplice

open Std

/-- The context of an output word. -/
structure Context where
  /-- State of the machine in which the word is assembled. -/
  state : Nat
  /-- State in which the next word is assembled. -/
  nextState : Nat
  /-- Source of each output byte. -/
  sources : List (Option Source)
  /-- Source of the first byte of the next word. -/
  following : Option Source
  /-- Whether the word starts with the rest of an input word. -/
  resumes : Bool
  /-- Whether there is no next word. -/
  last : Bool
  deriving DecidableEq, Repr

namespace Context

instance : Ord Context :=
  ⟨compareLex (compareOn state) <| compareLex (compareOn nextState) <|
    compareLex (compareOn sources) <| compareLex (compareOn following) <|
    compareLex (compareOn resumes) (compareOn last)⟩

instance : TransOrd Context :=
  inferInstanceAs <| TransCmp <|
    compareLex (compareOn state) <| compareLex (compareOn nextState) <|
    compareLex (compareOn sources) <| compareLex (compareOn following) <|
    compareLex (compareOn resumes) (compareOn last)

instance : LawfulEqOrd Context where
  eq_of_compare {a b} h := by
    have hFields := compareLex_eq_iff.mp h
    simp only [compareLex_eq_iff, compareOn_eq_iff] at hFields
    cases a
    cases b
    simp_all

end Context

namespace SubState

/-- Whether the word of `next` starts with the rest of the input word that ends the
word of `s`: the last byte of `s` is not the last of its input word, and the byte
after it comes next. -/
def splitsInto (s next : SubState) (wordBytes : Nat) : Bool :=
  match s.sources.getLast?.join, next.sources.head?.join with
  | some last, some first =>
      last.byte ≠ wordBytes - 1 && first.stream == last.stream && first.byte == last.byte + 1
  | _, _ => false

/-- The first output byte, from `outputByte` on, whose successor comes from an earlier
stream. `following` is the source of the first byte of the next output word. -/
def disorder? (following : Option Source) : (outputByte : Nat) → List (Option Source) → Option Nat
  | _, [] => none
  | outputByte, cell :: rest =>
      let after := rest.head?.getD following
      if cell.any fun source => after.any (·.stream < source.stream) then some outputByte
      else disorder? following (outputByte + 1) rest

/-- The context of a word, given the sub-states of the output words before and after it
in the same layout. -/
def context (s : SubState) (wordBytes : Nat) (previous next : Option SubState) :
    Except Violation Context := do
  let nextState ← next.elim (pure 0) SubState.state
  let state ← s.state
  let following := next.bind (·.sources.head?.join)
  match disorder? following 0 s.sources with
  | some outputByte => throw (.streamOrder s.label outputByte)
  | none =>
      return {
        state := state
        nextState := nextState
        sources := s.sources
        following := following
        resumes := previous.any (·.splitsInto s wordBytes)
        last := next.isNone }

end SubState

namespace Inversion

/-- The sub-state of the output word before the one with the given label. -/
def previous? (subStates : SubStates) (label : WordLabel) : Option SubState :=
  match label.word with
  | 0 => none
  | word + 1 => subStates[{ label with word := word }]?

/-- The contexts of all output words. The first failure in label order is reported. -/
def contexts (inversion : Inversion) : Except Violation (SortedSet Context) := do
  let subStates ← inversion.subStates
  SortedSet.collect (fun (label, s) =>
    s.context inversion.wordBytes (previous? subStates label) subStates[label.next]?)
    subStates.toList

end Inversion

end StreamSplice
