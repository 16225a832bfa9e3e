/-! Failures to lay out the bytes of a frame. -/
namespace StreamSplice

/-- Why bytes cannot be laid out. -/
inductive LayoutError where
  /-- An offset has to address a byte within a word. -/
  | offsetOutOfRange (offset wordBytes : Nat)
  /-- Elements of zero bytes. -/
  | zeroElementSize
  /-- The byte size of a frame is beyond the largest size. -/
  | sizeOverflow (elementSize elementCount : Nat)
  /-- More combinations of layouts than the given limit. -/
  | tooManyCombinations (combinations limit : Nat)
  deriving DecidableEq, Repr

namespace LayoutError

def message : LayoutError → String
  | offsetOutOfRange offset wordBytes =>
      s!"Offset ({offset}) is outside of a {wordBytes} byte word."
  | zeroElementSize => "Element size must be non-zero."
  | sizeOverflow elementSize elementCount =>
      s!"A frame of {elementCount} elements of {elementSize} bytes is too large."
  | tooManyCombinations combinations limit =>
      s!"Found {combinations} frame format combinations, more than the limit of {limit}."

end LayoutError

/-- An offset is usable only if it addresses a byte within a word. -/
def requireInWord (offset wordBytes : Nat) : Except LayoutError Unit :=
  if offset < wordBytes then .ok () else .error (.offsetOutOfRange offset wordBytes)

end StreamSplice
