import StreamSplice.Layout.Placement
import StreamSplice.Table.Basic

/-! The input pipelines that a join machine drives, cycle by cycle. Every stream has a
queue of input words. Its registers show the oldest words, and a fired transition clears
the bytes it consumes; words that are used up leave the queue. -/
namespace StreamSplice.Pipeline

/-- One frame sent on a stream. -/
structure Frame where
  /-- Number of bytes in the frame. -/
  byteCount : Nat
  /-- Offset of the first byte within the first input word. -/
  startOffset : Nat
  deriving DecidableEq, Repr

/-- A byte of a frame. Frames are sent in tuples, one frame per stream. -/
structure FrameByte where
  tuple : Nat
  stream : Nat
  /-- Index of the byte within its frame. -/
  index : Nat
  deriving DecidableEq, Repr

/-- An input word in the queue of a stream. -/
structure InputWord where
  /-- Bytes that are there and not consumed yet. -/
  keep : List Bool
  /-- Whether the word has been consumed in part. -/
  relict : Bool
  /-- Whether the word is the last one of its frame. -/
  last : Bool
  /-- What the word was sent with. -/
  bytes : List (Option FrameByte)
  deriving DecidableEq, Repr

namespace InputWord

/-- The register contents that show a word. -/
def register (word : InputWord) : Register := ⟨word.keep, word.relict, word.last⟩

/-- Whether a byte of the word is left. -/
def hasBytes (word : InputWord) : Bool := word.keep.any id

/-- Drop the bytes that a mask clears. -/
def clear (word : InputWord) (mask : List Bool) : InputWord :=
  { word with keep := List.zipWith (· && ·) word.keep mask }

end InputWord

/-- The byte of a frame at a position counted from the start of its first word. -/
def Frame.byteAt? (frame : Frame) (tuple stream position : Nat) : Option FrameByte :=
  if frame.startOffset ≤ position ∧ position < frame.startOffset + frame.byteCount then
    some ⟨tuple, stream, position - frame.startOffset⟩
  else none

/-- The input words of a frame. A frame without bytes is a single empty word, flagged
both last and relict. -/
def Frame.inputWords (frame : Frame) (wordBytes tuple stream : Nat) : List InputWord :=
  if frame.byteCount = 0 then
    [⟨List.replicate wordBytes false, true, true, List.replicate wordBytes none⟩]
  else
    let count := Layout.wordsSpanned wordBytes (frame.startOffset + frame.byteCount)
    (List.range count).map fun word =>
      let bytes := (List.range wordBytes).map fun byte =>
        frame.byteAt? tuple stream (word * wordBytes + byte)
      ⟨bytes.map Option.isSome, false, word + 1 == count, bytes⟩

/-- A register past the end of the queue. -/
def vacant (wordBytes : Nat) : Register := ⟨List.replicate wordBytes false, false, false⟩

/-- What `count` registers show of a queue. -/
def shown (wordBytes count : Nat) (queue : List InputWord) : List Register :=
  (List.range count).map fun stage =>
    match queue[stage]? with
    | some word => word.register
    | none => vacant wordBytes

/-- Clear the consumed bytes of the words shown. -/
def clearAll : List InputWord → (masks : List (List Bool)) → List InputWord
  | word :: queue, mask :: masks => word.clear mask :: clearAll queue masks
  | queue, _ => queue

/-- Clear the consumed bytes of the words shown and let the words leave that are used up:
the oldest one as soon as it is empty, a younger one only if it was emptied just now. A
word that has lost a byte and is the oldest one left becomes a relict. -/
def consume : (oldest : Bool) → List InputWord → (masks : List (List Bool)) → List InputWord
  | oldest, word :: queue, mask :: masks =>
      let cleared := word.clear mask
      if !cleared.hasBytes && (oldest || word.hasBytes) then
        consume false queue masks
      else
        { cleared with relict := word.relict || cleared.keep ≠ word.keep } ::
          clearAll queue masks
  | _, queue, _ => queue

/-- State of the machine and the queues of its streams. -/
structure Configuration where
  state : Nat
  queues : List (List InputWord)
  deriving DecidableEq, Repr

/-- One output word. A driven byte shows what its source was sent with. -/
structure OutputWord where
  bytes : List (Option (Option FrameByte))
  last : Bool
  deriving DecidableEq, Repr

/-- The registers of all streams. -/
def registers (table : Table) (queues : List (List InputWord)) : List (List Register) :=
  List.zipWith (shown table.wordBytes) table.registerCounts queues

/-- The byte that a multiplexer selects. -/
def selected? (queues : List (List InputWord)) (selection : Selection) : Option FrameByte := do
  let word ← (← queues[selection.stream]?)[selection.stage]?
  (← word.bytes[selection.byte]?)

/-- The output word that a transition assembles. -/
def output (t : Transition) (queues : List (List InputWord)) : OutputWord where
  bytes := t.outputMux.map (Option.map (selected? queues))
  last := t.last

/-- The queues after a transition has fired. Streams that it does not read are left
alone. -/
def advance (t : Transition) (queues : List (List InputWord)) : List (List InputWord) :=
  queues.zipIdx.map fun (queue, stream) =>
    if t.reads[stream]?.getD false then
      consume true queue (t.keepMasks[stream]?.getD [])
    else queue

/-- One cycle, if the registers enable a transition. -/
def cycle? (table : Table) (c : Configuration) : Option (OutputWord × Configuration) := do
  let t ← table.select c.state (registers table c.queues)
  return (output t c.queues, ⟨t.nextState, advance t c.queues⟩)

/-- A number of cycles, unless the machine stalls before. -/
def cycles? (table : Table) : Nat → Configuration → Option (List OutputWord × Configuration)
  | 0, c => some ([], c)
  | n + 1, c => do
      let (word, next) ← cycle? table c
      let (words, final) ← cycles? table n next
      return (word :: words, final)

/-- The queues that hold tuples of frames, the first tuple being number `tuple`. -/
def queuesOf (wordBytes streamCount : Nat) : (tuple : Nat) → List (List Frame) →
    List (List InputWord)
  | _, [] => List.replicate streamCount []
  | tuple, frames :: rest =>
      List.zipWith (· ++ ·)
        (frames.zipIdx.map fun (frame, stream) => frame.inputWords wordBytes tuple stream)
        (queuesOf wordBytes streamCount (tuple + 1) rest)

end StreamSplice.Pipeline
