import StreamSplice.Layout.Representative

/-! Sampling step by step, with every intermediate result kept within the range of sizes. Each
length of the window is looked at on its own. A step that leaves the range where that is not
expected leaves no outcome at all, neither counts nor an error. -/
namespace StreamSplice

/-- A quotient rounded up. It is rounded down first, and one is added if there is a rest. -/
def quotientUp? (a b : Nat) : Option Nat :=
  if b = 0 then none else if a % b = 0 then some (a / b) else sum? (a / b) 1

/-- A computation on sizes. It has no outcome if a step leaves the range of sizes. -/
abbrev Stepwise := ExceptT LayoutError Option

/-- The byte count of a representative frame. A frame whose bytes or whose end exceed the largest
size is an error. -/
def stepwiseSize (wordBytes offset elementSize elementCount : Nat) : Stepwise Nat := do
  let some size := (product? elementSize elementCount).filter fun size => (sum? offset size).isSome
    | throw (.sizeOverflow elementSize elementCount)
  let words ← quotientUp? (← sum? offset size) wordBytes
  let surplus := words - maxRepresentativeWords
  difference? size (← product? surplus wordBytes)

/-- The byte counts of the representatives of a range of lengths. If the range holds one length
only, there is no window. -/
def stepwiseCounts (wordBytes outputOffset inputOffset elementSize : Nat) (lengths : Lengths) :
    Stepwise (SortedSet Nat) := do
  requireInWord outputOffset wordBytes
  requireInWord inputOffset wordBytes
  if elementSize = 0 then
    throw .zeroElementSize
  let size := stepwiseSize wordBytes (max outputOffset inputOffset) elementSize
  if lengths.isExact then
    return .ofList [← size lengths.shortest]
  let samples := List.range' lengths.shortest
    (lengths.lastSample wordBytes + 1 - lengths.shortest)
  return .ofList (← samples.mapM size)

end StreamSplice
