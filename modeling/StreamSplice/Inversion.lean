import StreamSplice.ByKey
import StreamSplice.Layout.Basic
import StreamSplice.Limit
import StreamSplice.SubState

/-! Inversion of layouts. A layout tells which input byte lands at an output position;
its inversion tells, for every input byte, the output words that consume it, how many
pipeline stages behind the least advanced byte of its stream it then sits, and where
it lands. -/
namespace StreamSplice

open Std

/-- A context in which an input byte is consumed. -/
structure ByteUse where
  stream : Nat
  /-- Byte within the input word. -/
  byte : Nat
  /-- The output word that consumes the byte. -/
  label : WordLabel
  /-- Pipeline stages behind the least advanced byte of the stream. -/
  stage : Nat
  /-- Position of the byte in the output word. -/
  outputByte : Nat
  /-- Whether the input word is the last word of its frame. -/
  inLastWord : Bool
  deriving DecidableEq, Repr

namespace ByteUse

/-- By input byte, then by the output word, then by the place in it. -/
instance : Ord ByteUse :=
  ⟨compareLex (compareOn stream) <| compareLex (compareOn byte) <|
    compareLex (compareOn label) <| compareLex (compareOn stage) <|
    compareLex (compareOn outputByte) (compareOn inLastWord)⟩

instance : TransOrd ByteUse :=
  inferInstanceAs <| TransCmp <|
    compareLex (compareOn stream) <| compareLex (compareOn byte) <|
    compareLex (compareOn label) <| compareLex (compareOn stage) <|
    compareLex (compareOn outputByte) (compareOn inLastWord)

instance : LawfulEqOrd ByteUse where
  eq_of_compare {a b} h := by
    have hFields := compareLex_eq_iff.mp h
    simp only [compareLex_eq_iff, compareOn_eq_iff] at hFields
    cases a
    cases b
    simp_all

/-- The source that the use assigns to its output byte. -/
def source (use : ByteUse) : Source := ⟨use.stream, use.stage, use.byte, use.inLastWord⟩

end ByteUse

/-- Every use of every byte of the words of `streamCount` streams. -/
structure Inversion where
  wordBytes : Nat
  streamCount : Nat
  uses : SortedSet ByteUse
  deriving DecidableEq

namespace Inversion

/-- The least input word of each stream among the cells of an output word. -/
def firstWords (cells : List Cell) : TreeMap Nat Nat :=
  combineByKey min ((cells.filterMap id).map fun origin => (origin.stream, origin.word))

theorem getElem?_firstWords (cells : List Cell) (stream : Nat) :
    (firstWords cells)[stream]? =
      (((cells.filterMap id).filter (·.stream == stream)).map Origin.word).min? := by
  rw [firstWords, getElem?_combineByKey_min, valuesOf, List.filter_map, List.map_map]
  rfl

/-- The use of an input byte placed at position `outputByte` of a word, given the least
input words in the word. -/
def useOf (label : WordLabel) (first : TreeMap Nat Nat) (outputByte : Nat) (origin : Origin) :
    ByteUse where
  stream := origin.stream
  byte := origin.byte
  label := label
  stage := origin.word - first[origin.stream]?.getD 0
  outputByte := outputByte
  inLastWord := origin.inLastWord

/-- Whether an input byte belongs to a word that comes before the first one of its stream,
or to a stream without a first word. -/
def precedesFirst (first : TreeMap Nat Nat) (origin : Origin) : Bool :=
  first[origin.stream]?.all (origin.word < ·)

/-- What is wrong with a byte of a stream past the known ones: it takes one more stream than its
number says. -/
def unknownStream (streamCount stream : Nat) : Violation :=
  match sum? stream 1 with
  | some found => .streamCountMismatch streamCount found
  | none => .countOverflow

/-- Uses of the bytes of one output word. -/
def wordUses (wordBytes streamCount : Nat) (label : WordLabel) (cells : List Cell) :
    Except Violation (List ByteUse) :=
  if cells.length ≠ wordBytes then
    .error (.wordWidthMismatch wordBytes cells.length)
  else match (cells.filterMap id).find? (streamCount ≤ ·.stream) with
    | some origin => .error (unknownStream streamCount origin.stream)
    | none =>
        let first := firstWords cells
        match (cells.filterMap id).find? (precedesFirst first) with
        | some origin => .error (.negativeStage label origin.stream)
        | none =>
            .ok <| cells.zipIdx.filterMap fun (cell, outputByte) =>
              cell.map (useOf label first outputByte)

/-- Output words of layouts with their labels. Layouts are labelled by their position
in the list. -/
def labelledWords (layouts : List Layout) : List (WordLabel × List Cell) :=
  layouts.zipIdx.flatMap fun (layout, index) =>
    layout.words.zipIdx.map fun (cells, word) => (⟨index, word⟩, cells)

/-- Every context in which a byte of `streamCount` streams is consumed. The first
word, in the order of the layouts, that does not fit is an error. -/
def ofLayouts (wordBytes : Nat) (layouts : List Layout) (streamCount : Nat) :
    Except Violation Inversion := do
  let perWord ← (labelledWords layouts).mapM fun (label, cells) =>
    wordUses wordBytes streamCount label cells
  return ⟨wordBytes, streamCount, .ofList perWord.flatten⟩

/-- Uses of byte `byte` of the words of stream `stream`. -/
def usesOf? (inversion : Inversion) (stream byte : Nat) : Option (List ByteUse) :=
  if stream < inversion.streamCount ∧ byte < inversion.wordBytes then
    some (inversion.uses.toList.filter fun use => use.stream == stream && use.byte == byte)
  else none

/-- Largest stage at which each stream is consumed, zero for a stream that never is. -/
def lookahead (inversion : Inversion) : List Nat :=
  let last := combineByKey max (inversion.uses.toList.map fun use => (use.stream, use.stage))
  (List.range inversion.streamCount).map fun stream => last[stream]?.getD 0

theorem lookahead_eq (inversion : Inversion) :
    inversion.lookahead = (List.range inversion.streamCount).map fun stream =>
      (((inversion.uses.toList.filter (·.stream == stream)).map ByteUse.stage).max?).getD 0 := by
  unfold lookahead
  refine List.map_congr_left fun stream _ => ?_
  rw [getElem?_combineByKey_max, valuesOf, List.filter_map, List.map_map]
  rfl

/-- The sub-states collected so far, in label order. -/
abbrev SubStates := TreeMap WordLabel SubState

/-- Add a use to the sub-state of its output word. -/
def collect (wordBytes : Nat) (subStates : SubStates) (use : ByteUse) :
    Except Violation SubStates := do
  let subState := subStates[use.label]?.getD (.blank use.label wordBytes)
  return subStates.insert use.label (← subState.assign use.outputByte use.source)

/-- The sub-states that the uses were made from: for every output word that holds a
byte, the source of each of its bytes. -/
def subStates (inversion : Inversion) : Except Violation SubStates :=
  inversion.uses.toList.foldlM (collect inversion.wordBytes) ∅

end Inversion

end StreamSplice
