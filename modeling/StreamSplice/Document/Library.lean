import StreamSplice.Document.Shape

/-! The library that reads and writes documents. It is not part of this development: all that is
said about it here is what it takes and what it gives. -/
namespace StreamSplice.Document

/-- Why a document cannot be read, with the text that the library has for it. -/
inductive Fault where
  /-- The bytes are not a document. -/
  | malformed (text : String)
  /-- The bytes end too early. -/
  | truncated (text : String)
  /-- The document does not have the declared shape. -/
  | mismatch (text : String)
  /-- The supplier of the bytes failed. -/
  | supply (reason : String)
  deriving DecidableEq, Repr

def Fault.text : Fault → String
  | malformed text | truncated text | mismatch text | supply text => text

/-- An error of the library: a fault, and the place where it was found. There is no such place, and
its line is zero, if the supplier failed. -/
structure JsonError where
  fault : Fault
  line : Nat
  column : Nat
  deriving DecidableEq, Repr

def JsonError.message (error : JsonError) : String :=
  if error.line = 0 then error.fault.text
  else s!"{error.fault.text} at line {error.line} column {error.column}"

/-- How the bytes of a document end. -/
inductive Ending where
  | complete
  /-- The supplier fails once the bytes are used up. -/
  | failed (reason : String)
  deriving DecidableEq, Repr

/-- A supplier hands out pieces of some bytes each, and then ends or fails. -/
structure Supplier where
  pieces : List (List UInt8)
  nonempty : ∀ piece ∈ pieces, piece ≠ []
  ending : Ending

/-- All bytes that a supplier hands out. -/
def Supplier.bytes (supplier : Supplier) : List UInt8 := supplier.pieces.flatten

/-- A library that reads values of declared types from documents, and writes them. -/
structure Library where
  fromSlice {α : Type} (shape : Shape α) (bytes : List UInt8) : Except JsonError α
  fromReader {α : Type} (shape : Shape α) (supplier : Supplier) : Except JsonError α
  toText {α : Type} (shape : Shape α) (a : α) : List UInt8

end StreamSplice.Document
