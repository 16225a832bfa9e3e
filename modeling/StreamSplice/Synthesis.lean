import StreamSplice.Layout.Enumeration
import StreamSplice.Table.Construction

/-! Synthesis of the machine that joins the streams of a description: check the
description, enumerate its layouts, invert them, build the machine. -/
namespace StreamSplice

/-- Why no machine is synthesized. -/
inductive SynthesisError where
  /-- A malformed description. -/
  | configuration (error : ConfigError)
  /-- A description that the synthesizer does not handle. -/
  | unsupported (error : Unsupported)
  /-- A join that the machine cannot express. -/
  | invariant (error : Violation)
  deriving DecidableEq, Repr

namespace SynthesisError

def message : SynthesisError → String
  | configuration error => "Invalid configuration: " ++ error.message
  | unsupported error => "Unsupported configuration: " ++ error.message
  | invariant error => "Synthesis failed: " ++ error.message

def ofRejection : Rejection → SynthesisError
  | .malformed error => configuration error
  | .unsupported error => unsupported error

/-- Failures to lay out bytes, in terms of the description. -/
def ofLayoutError : LayoutError → SynthesisError
  | .offsetOutOfRange offset wordBytes =>
      configuration (.startOffsetOutOfRange offset wordBytes)
  | .zeroElementSize => configuration .zeroElementWidth
  | .sizeOverflow elementSize elementCount =>
      configuration (.frameTooLarge elementSize elementCount)
  | .tooManyCombinations combinations limit =>
      unsupported (.tooManyCombinations combinations limit)

end SynthesisError

namespace Join

/-- Synthesize the machine that joins the streams of a description. -/
def synthesize (join : Join) : Except SynthesisError Table := do
  join.check.mapError .ofRejection
  let layouts ← (joinedLayouts join.wordBytes join.streams join.outputOffset
    join.maxLayouts).mapError .ofLayoutError
  let inversion ← (Inversion.ofLayouts join.wordBytes layouts.toList
    join.streams.length).mapError .invariant
  (Table.build join.wordBytes join.streams.length inversion join.emptiable).mapError .invariant

end Join

end StreamSplice
