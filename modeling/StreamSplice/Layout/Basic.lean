import StreamSplice.Order
import StreamSplice.SortedSet

/-! Layouts of output bytes. A layout is a sequence of output words; each byte
position of a word either is padding or names the input byte placed there. -/
namespace StreamSplice

open Std

/-- The input byte placed at an output position. Words and bytes are counted within
the frame of the stream. -/
structure Origin where
  /-- Index of the input stream. -/
  stream : Nat
  /-- Index of the input word within its frame. -/
  word : Nat
  /-- Index of the byte within its input word. -/
  byte : Nat
  /-- Whether the input word is the last word of its frame. -/
  inLastWord : Bool
  deriving DecidableEq, Repr

namespace Origin

/-- By stream, then by input word, then by byte within that word. -/
instance : Ord Origin :=
  ⟨compareLex (compareOn stream) <| compareLex (compareOn word) <|
    compareLex (compareOn byte) (compareOn inLastWord)⟩

instance : TransOrd Origin :=
  inferInstanceAs <| TransCmp <| compareLex (compareOn stream) <|
    compareLex (compareOn word) <| compareLex (compareOn byte) (compareOn inLastWord)

instance : LawfulEqOrd Origin where
  eq_of_compare {a b} h := by
    have hFields := compareLex_eq_iff.mp h
    simp only [compareLex_eq_iff, compareOn_eq_iff] at hFields
    cases a
    cases b
    simp_all

end Origin

/-- One byte position of an output word, `none` if it is padding. -/
abbrev Cell := Option Origin

/-- A candidate layout of output bytes, word by word. -/
structure Layout where
  words : List (List Cell)
  deriving DecidableEq, Repr

namespace Layout

/-- Lexicographic by words, then by cells; padding precedes every byte. -/
instance : Ord Layout := ⟨compareOn words⟩

instance : TransOrd Layout := inferInstanceAs (TransCmp (compareOn words))

instance : LawfulEqOrd Layout where
  eq_of_compare {a b} h := by
    cases a
    cases b
    exact congrArg mk (LawfulEqOrd.eq_of_compare h)

/-- The layout without any word. -/
def empty : Layout := ⟨[]⟩

def isEmpty (layout : Layout) : Bool := layout.words.isEmpty

/-- Every byte position of every word, padding included. -/
def cells (layout : Layout) : List Cell := layout.words.flatten

/-- The bytes of the layout in output order, without padding. -/
def data (layout : Layout) : List Origin := layout.cells.filterMap id

/-- Offset at which data following this layout starts in the output: the position
after the last byte of the final word, a full word wrapping to zero. There is none
if the final word holds no byte. -/
def endOffset? (layout : Layout) (wordBytes : Nat) : Option Nat := do
  let last ← layout.words.getLast?
  match (last.reverse.dropWhile Option.isNone).length with
  | 0 => none
  | position => some (position % wordBytes)

end Layout

end StreamSplice
