import StreamSplice.Rejection
import StreamSplice.SortedSet

/-! Descriptions of the input streams. A stream is known only by the width of its
elements, the byte offsets at which its frames may start within a word, and the
range of its frame lengths. -/
namespace StreamSplice

/-- Inclusive range of the number of elements in a frame. Without a longest length
the range extends up to the largest size. -/
structure Lengths where
  shortest : Nat
  longest : Option Nat
  deriving DecidableEq, Repr

namespace Lengths

/-- Whether every frame holds the same number of elements. -/
def isExact (lengths : Lengths) : Bool := lengths.longest == some lengths.shortest

/-- Whether a frame may hold `count` elements. -/
def admits (lengths : Lengths) (count : Nat) : Prop :=
  lengths.shortest ≤ count ∧ ∀ longest, lengths.longest = some longest → count ≤ longest

end Lengths

/-- Static description of one input stream. -/
structure Stream where
  /-- Width of an element, in bits. -/
  elementBits : Nat
  /-- Byte offsets within a word at which a frame may start. -/
  startOffsets : SortedSet Nat
  /-- Range of frame lengths, in elements. -/
  lengths : Lengths
  deriving DecidableEq

namespace Stream

/-- Width of an element, in whole bytes. -/
def elementBytes (stream : Stream) : Nat := stream.elementBits / 8

/-- Whether a frame may hold no bytes at all. -/
def canBeEmpty (stream : Stream) : Bool := stream.lengths.shortest == 0

/-- Whether the stream can be joined into words of `wordBytes` bytes. The first
defect in the order below is reported; of several start offsets outside of the
word it is the least one. -/
def check (stream : Stream) (wordBytes : Nat) : Except Rejection Unit := do
  if stream.elementBits = 0 then
    throw (.malformed .zeroElementWidth)
  if stream.elementBits % 8 ≠ 0 then
    throw (.unsupported (.subByteElement stream.elementBits))
  if stream.startOffsets.isEmpty then
    throw (.malformed .noStartOffsets)
  if let some offset := stream.startOffsets.toList.find? (wordBytes ≤ ·) then
    throw (.malformed (.startOffsetOutOfRange offset wordBytes))
  if let some longest := stream.lengths.longest then
    if longest < stream.lengths.shortest then
      throw (.malformed (.invertedLengths stream.lengths.shortest longest))

end Stream

end StreamSplice
