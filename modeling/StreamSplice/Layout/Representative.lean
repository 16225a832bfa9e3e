import StreamSplice.Layout.Error
import StreamSplice.Limit
import StreamSplice.Stream
import StreamSplice.Layout.Placement

/-! Selection of representative frame lengths. A stream admits many frame lengths,
often unboundedly many, but the words that a frame is consumed through fall into
finitely many patterns: dropping body words from the middle of a long frame changes
none of them, and the fill of the last word repeats with the length of the frame. -/
namespace StreamSplice

/-- Words spanned by the longest representative frame: the first word, two full
body words and the last word. -/
def maxRepresentativeWords : Nat := 4

/-- Lengths sampled past the shortest one, in words' worth of lengths. The pattern
of a frame repeats after at most two words' worth; three such periods are sampled. -/
def sampledWords : Nat := 6

/-- Byte count of the shortest frame laid out like one of `elementCount` elements.
Longer frames lose whole body words, which keeps the fill of the first and of the
last word and every pair of adjacent words. -/
def representativeSize (wordBytes offset elementSize elementCount : Nat) : Nat :=
  let size := elementSize * elementCount
  let surplus := Layout.wordsSpanned wordBytes (offset + size) - maxRepresentativeWords
  size - surplus * wordBytes

/-- The longest sampled length of a range. -/
def Lengths.lastSample (lengths : Lengths) (wordBytes : Nat) : Nat :=
  let window := saturate (lengths.shortest + saturate (wordBytes * sampledWords))
  match lengths.longest with
  | none => window
  | some longest => min longest window

theorem Lengths.lastSample_eq (lengths : Lengths) (wordBytes : Nat) :
    lengths.lastSample wordBytes =
      min (lengths.longest.getD maxSize) (min (lengths.shortest + 6 * wordBytes) maxSize) := by
  rw [lastSample]
  cases lengths.longest <;> simp only [saturate, sampledWords, Option.getD] <;> omega

/-- The least number of elements whose bytes exceed the largest size if they are placed
from `offset` on. -/
def leastOversized (offset elementSize : Nat) : Nat := (maxSize - offset) / elementSize + 1

theorem lt_leastOversized_iff {offset elementSize count : Nat} (h : 0 < elementSize)
    (hOffset : offset ≤ maxSize) :
    count < leastOversized offset elementSize ↔ offset + elementSize * count ≤ maxSize := by
  rw [leastOversized, Nat.lt_succ_iff, Nat.le_div_iff_mul_le h, Nat.mul_comm]
  omega

/-- Byte counts that together cover every distinct layout of a frame, for one output
offset and one input offset. The shortest sample that is too large is an error. Frames
longer than the representative ones differ in the fill of their last word only, which
repeats with the length, so no more than one period of them is laid out. -/
def representativeCounts (wordBytes outputOffset inputOffset elementSize : Nat)
    (lengths : Lengths) : Except LayoutError (SortedSet Nat) := do
  requireInWord outputOffset wordBytes
  requireInWord inputOffset wordBytes
  if elementSize = 0 then
    throw .zeroElementSize
  let offset := max outputOffset inputOffset
  let lastSample := lengths.lastSample wordBytes
  let oversized := max lengths.shortest (leastOversized offset elementSize)
  if oversized ≤ lastSample then
    throw (.sizeOverflow elementSize oversized)
  let long := max lengths.shortest
    ((maxRepresentativeWords * wordBytes - offset) / elementSize + 1)
  let period := wordBytes / Nat.gcd elementSize wordBytes
  let samples := List.range' lengths.shortest
    (min (lastSample + 1) (long + period) - lengths.shortest)
  return .ofList (samples.map (representativeSize wordBytes offset elementSize))

end StreamSplice
