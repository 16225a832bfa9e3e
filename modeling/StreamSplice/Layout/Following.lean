import StreamSplice.Limit
import StreamSplice.Stream

/-! Offsets that follow a frame. Stepping the length of a frame by one element steps the offset
at which it ends by the element size, so the lengths are walked until an offset turns up again.
The walk has no outcome if a product or a sum on the way exceeds the largest size. -/
namespace StreamSplice

open Std

/-- Walk the lengths from `count` on, of which the first is followed at `offset` and `room` more
are sizes, and add what follows them to the offsets found before. The walk ends past the longest
length, past the largest size, and at an offset that was found before. -/
def followingFrom (wordBytes step : Nat) (longest : Option Nat)
    (room count offset : Nat) (found : TreeSet Nat) : Option (TreeSet Nat) :=
  if longest.any (· < count) || found.contains offset then some found
  else match room with
    | 0 => some (found.insert offset)
    | room + 1 => do
        let next ← sum? offset step
        followingFrom wordBytes step longest room (count + 1) (next % wordBytes)
          (found.insert offset)

/-- Output offsets, relative to the start of a frame of `stream`, at which the data
following it may start. There are none in words without bytes. -/
def Stream.followingOffsets (stream : Stream) (wordBytes : Nat) : Option (SortedSet Nat) := do
  if wordBytes = 0 then
    return ∅
  let step := stream.elementBytes % wordBytes
  let shortest := stream.lengths.shortest
  let first ← product? (shortest % wordBytes) step
  let found ← followingFrom wordBytes step stream.lengths.longest (maxSize - shortest)
    shortest (first % wordBytes) ∅
  return .ofTree found

end StreamSplice
