/-! Reasons for which the description of a stream or of a join is turned down. A
description is either malformed, or well-formed but outside of what the synthesizer
handles; the two are kept apart because a caller reacts to them differently. -/
namespace StreamSplice

/-- What is wrong with a malformed description. -/
inductive ConfigError where
  /-- Words of zero bytes. -/
  | zeroWordWidth
  /-- The output may not start outside of its first word. -/
  | outputOffsetOutOfRange (offset wordBytes : Nat)
  /-- Nothing to join. -/
  | noStreams
  /-- Elements of zero bits. -/
  | zeroElementWidth
  /-- No offset at which a frame could start. -/
  | noStartOffsets
  /-- A frame may not start outside of its first word. -/
  | startOffsetOutOfRange (offset wordBytes : Nat)
  /-- The shortest frame is longer than the longest one. -/
  | invertedLengths (min max : Nat)
  /-- The byte size of a frame is beyond the largest size. -/
  | frameTooLarge (elementSize elementCount : Nat)
  /-- An error in the description of a single stream. -/
  | inStream (index : Nat) (source : ConfigError)
  deriving DecidableEq, Repr

/-- What is out of scope in a well-formed description. -/
inductive Unsupported where
  /-- Elements that are not a whole number of bytes. -/
  | subByteElement (bits : Nat)
  /-- More combinations of layouts than the description allows. -/
  | tooManyCombinations (combinations limit : Nat)
  /-- An unsupported property of a single stream. -/
  | inStream (index : Nat) (source : Unsupported)
  deriving DecidableEq, Repr

/-- Either reason to turn a description down. -/
inductive Rejection where
  | malformed (error : ConfigError)
  | unsupported (error : Unsupported)
  deriving DecidableEq, Repr

def ConfigError.message : ConfigError → String
  | zeroWordWidth => "Word width must be at least one byte."
  | outputOffsetOutOfRange offset wordBytes =>
      s!"Output offset ({offset}) is outside of a {wordBytes} byte word."
  | noStreams => "At least one input stream is required."
  | zeroElementWidth => "Element width must be non-zero."
  | noStartOffsets => "At least one start offset is required."
  | startOffsetOutOfRange offset wordBytes =>
      s!"Start offset ({offset}) is outside of a {wordBytes} byte word."
  | invertedLengths min max => s!"Minimum frame length ({min}) exceeds the maximum ({max})."
  | frameTooLarge elementSize elementCount =>
      s!"A frame of {elementCount} elements of {elementSize} bytes is too large."
  | inStream index source => s!"Stream {index}: {source.message}"

def Unsupported.message : Unsupported → String
  | subByteElement bits => s!"Element width ({bits} bits) is not a whole number of bytes."
  | tooManyCombinations combinations limit =>
      s!"Found {combinations} frame format combinations, more than the limit of {limit}."
  | inStream index source => s!"Stream {index}: {source.message}"

def Rejection.message : Rejection → String
  | malformed error => error.message
  | unsupported error => error.message

/-- Attribute a rejection to the stream at `index`. -/
def Rejection.at (index : Nat) : Rejection → Rejection
  | malformed error => malformed (.inStream index error)
  | unsupported error => unsupported (.inStream index error)

end StreamSplice
