import StreamSplice.Join
import StreamSplice.Layout.Representative

/-! Enumeration of representative layouts. The layouts of a stream are enumerated at
every offset at which the layouts of the stream before it may end; then every
combination of one layout per stream is joined into one output layout. -/
namespace StreamSplice

/-- Every representative layout of a frame of `stream` placed at `outputOffset`: one
for every start offset and every representative byte count at that offset. -/
def Stream.layouts (stream : Stream) (wordBytes index outputOffset : Nat) :
    Except LayoutError (List Layout) := do
  let perOffset ← stream.startOffsets.toList.mapM fun inputOffset => do
    let counts ← representativeCounts wordBytes outputOffset inputOffset
      stream.elementBytes stream.lengths
    counts.toList.mapM fun count =>
      Layout.place wordBytes index count outputOffset inputOffset
  return perOffset.flatten

/-- The layouts of each stream, from stream `index` on, given the offsets at which
the first of them may start. A layout without bytes ends where it starts. -/
def layoutsPerStream (wordBytes : Nat) :
    (index : Nat) → (offsets : SortedSet Nat) → List Stream →
      Except LayoutError (List (SortedSet Layout))
  | _, _, [] => pure []
  | index, offsets, stream :: rest => do
      let perOffset ← offsets.toList.mapM fun offset => do
        let layouts ← stream.layouts wordBytes index offset
        return layouts.map fun layout =>
          (layout, (layout.endOffset? wordBytes).getD offset)
      let found := perOffset.flatten
      let later ← layoutsPerStream wordBytes (index + 1)
        (.ofList (found.map Prod.snd)) rest
      return .ofList (found.map Prod.fst) :: later

/-- Every way to choose one element per list, the last choice varying fastest. Past a
list without elements nothing is looked at. -/
def choices {α : Type} : List (List α) → List (List α)
  | [] => [[]]
  | [] :: _ => []
  | options :: rest =>
      let later := choices rest
      options.flatMap fun choice => later.map (choice :: ·)

theorem choices_cons {α : Type} (options : List α) (rest : List (List α)) :
    choices (options :: rest) =
      options.flatMap fun choice => (choices rest).map (choice :: ·) := by
  cases options <;> rfl

/-- Number of combinations with the given numbers of choices, multiplied out from the
left. There is none once a partial product is beyond the largest size, even if a
later factor is zero. -/
def combinations? (sizes : List Nat) : Option Nat :=
  sizes.foldlM (fun product size =>
    if product * size ≤ maxSize then some (product * size) else none) 1

/-- The number of combinations as reported: every partial product saturates. -/
def reportedCombinations (sizes : List Nat) : Nat :=
  sizes.foldl (fun product size => saturate (product * size)) 1

/-- Whether there are at most `limit` combinations to join. -/
def requireCombinations (sizes : List Nat) (limit : Nat) : Except LayoutError Unit :=
  match combinations? sizes with
  | some combinations =>
      if combinations ≤ limit then .ok ()
      else .error (.tooManyCombinations (reportedCombinations sizes) limit)
  | none => .error (.tooManyCombinations (reportedCombinations sizes) limit)

/-- Every representative output layout of `streams` joined in order from
`outputOffset` on, unless there are more than `limit` combinations to join. -/
def joinedLayouts (wordBytes : Nat) (streams : List Stream) (outputOffset limit : Nat) :
    Except LayoutError (SortedSet Layout) := do
  let perStream ← layoutsPerStream wordBytes 0 (.ofList [outputOffset]) streams
  requireCombinations (perStream.map SortedSet.size) limit
  SortedSet.collect (fun parts => Layout.splice wordBytes parts outputOffset)
    (choices (perStream.map SortedSet.toList))

end StreamSplice
