import StreamSplice.Stream

/-! Descriptions of a complete join: the streams in output order, and where the
joined frame starts. -/
namespace StreamSplice

/-- Description of a complete join. -/
structure Join where
  /-- Number of bytes in a single input and output word. -/
  wordBytes : Nat
  /-- Offset of the first output byte within the first output word. -/
  outputOffset : Nat
  /-- Input streams, in output order. -/
  streams : List Stream
  /-- Largest accepted number of layout combinations. -/
  maxLayouts : Nat
  deriving DecidableEq

namespace Join

/-- The bound on layout combinations of a description that names none. -/
def defaultMaxLayouts : Nat := 65536

/-- Whether each stream may contribute a frame without bytes. -/
def emptiable (join : Join) : List Bool := join.streams.map Stream.canBeEmpty

/-- Check the streams from `index` on, reporting the first rejection. -/
def checkStreams (wordBytes : Nat) : (index : Nat) → List Stream → Except Rejection Unit
  | _, [] => pure ()
  | index, stream :: rest => do
      (stream.check wordBytes).mapError (·.at index)
      checkStreams wordBytes (index + 1) rest

/-- Whether the description is one that the synthesizer accepts. The join itself is
checked before its streams, and the streams in their order. -/
def check (join : Join) : Except Rejection Unit := do
  if join.wordBytes = 0 then
    throw (.malformed .zeroWordWidth)
  if join.wordBytes ≤ join.outputOffset then
    throw (.malformed (.outputOffsetOutOfRange join.outputOffset join.wordBytes))
  if join.streams.isEmpty then
    throw (.malformed .noStreams)
  checkStreams join.wordBytes 0 join.streams

end Join

end StreamSplice
