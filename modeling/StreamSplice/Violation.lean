import StreamSplice.Transition
import StreamSplice.WordLabel

/-! Broken invariants of the construction of a join machine. Of these only
overlapping transitions arise from a valid description: they are the mark of a
combination of streams that the machine cannot tell apart. -/
namespace StreamSplice

/-- What is wrong with the layouts, or with the machine built from them. -/
inductive Violation where
  /-- A byte of a stream precedes the least advanced byte of that stream. -/
  | negativeStage (label : WordLabel) (stream : Nat)
  /-- Two sources for the same output byte. -/
  | duplicateSource (label : WordLabel) (outputByte : Nat)
  /-- Output bytes that are not in non-decreasing stream order. -/
  | streamOrder (label : WordLabel) (outputByte : Nat)
  /-- A sub-state without any source byte. -/
  | emptySubState (label : WordLabel)
  /-- Inputs describing a different number of streams. -/
  | streamCountMismatch (expected found : Nat)
  /-- A byte of the last stream that a size can number. The count of streams that goes with it is
  beyond the largest size, so there is no report: the construction stops where it is added up. -/
  | countOverflow
  /-- Inputs describing words of a different width. -/
  | wordWidthMismatch (expected found : Nat)
  /-- Two transitions of a state that may be enabled at once. -/
  | nonDeterministic (state : Nat) (first second : Transition)
  /-- A transition into a state without transitions. -/
  | deadEnd (state nextState : Nat)
  deriving DecidableEq, Repr

namespace Violation

def message : Violation → String
  | negativeStage label stream =>
      s!"Negative time offset of stream {stream} in sub-state {label.text}."
  | duplicateSource label outputByte =>
      s!"Output byte {outputByte} of sub-state {label.text} has more than one source."
  | streamOrder label outputByte =>
      s!"Output byte {outputByte} of sub-state {label.text} " ++
        "comes from an earlier stream than its predecessor."
  | emptySubState label => s!"Sub-state {label.text} has no source byte."
  | streamCountMismatch expected found => s!"Expected {expected} streams, found {found}."
  | countOverflow => "attempt to add with overflow"
  | wordWidthMismatch expected found => s!"Expected {expected} byte words, found {found}."
  | nonDeterministic state _ _ => s!"State {state} has overlapping transitions."
  | deadEnd state nextState =>
      s!"Transition from state {state} into state {nextState} which has no transitions."

end Violation

end StreamSplice
