import StreamSplice.Document.Library

/-! Reading a document from left to right. Bytes are looked at one after the other, and what has been
seen of them decides whether they can still become a document. -/
namespace StreamSplice.Document

/-- A scanner of documents that hold values of a type. -/
structure Scanner (α : Type) where
  State : Type
  start : State
  /-- Look at the next byte. -/
  step : State → UInt8 → Except Fault State
  /-- What the bytes are if there are no more of them. -/
  finish : State → Except Fault α

namespace Scanner

variable {α : Type} (scanner : Scanner α)

/-- Look at some bytes. -/
def feed (state : scanner.State) (bytes : List UInt8) : Except Fault scanner.State :=
  bytes.foldlM scanner.step state

/-- Read all of some bytes. -/
def scan (bytes : List UInt8) : Except Fault α := do
  scanner.finish (← scanner.feed scanner.start bytes)

/-- Read what a supplier hands out, piece by piece. A piece is asked for when the ones before it
have been looked at. -/
def demand (ending : Ending) : (state : scanner.State) → (pieces : List (List UInt8)) →
    Except Fault α
  | state, [] =>
      match ending with
      | .complete => scanner.finish state
      | .failed reason => throw (.supply reason)
  | state, piece :: pieces => do
      demand ending (← scanner.feed state piece) pieces

end Scanner

/-- Whether a fault can be told by a byte that is wrong where it stands. -/
def Fault.InText : Fault → Prop
  | .malformed _ | .mismatch _ => True
  | .truncated _ | .supply _ => False

/-- What is documented of reading from left to right: the outcome is that of a scanner, from a
supplier like from a slice, and the first problem met is the error. Before the end of the bytes no
error is about the end, and a failure of the supplier is not made up. -/
structure Library.ScansBy {α : Type} (library : Library) (shape : Shape α)
    (scanner : Scanner α) : Prop where
  slice (bytes : List UInt8) :
    (library.fromSlice shape bytes).mapError JsonError.fault = scanner.scan bytes
  reader (supplier : Supplier) :
    (library.fromReader shape supplier).mapError JsonError.fault =
      scanner.demand supplier.ending scanner.start supplier.pieces
  step {state : scanner.State} {byte : UInt8} {fault : Fault}
    (h : scanner.step state byte = .error fault) : fault.InText
  finish {state : scanner.State} {fault : Fault} (h : scanner.finish state = .error fault) :
    ∀ reason, fault ≠ .supply reason

end StreamSplice.Document
