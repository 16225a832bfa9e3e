import StreamSplice.Document.Library
import StreamSplice.Synthesis

/-! Synthesis from a document, either from all of its bytes or from a supplier of them. -/
namespace StreamSplice.Document

/-- Why no machine is synthesized from the bytes of a document. -/
inductive SliceError where
  /-- The bytes do not hold a description. -/
  | json (error : JsonError)
  /-- No machine is synthesized from the description. -/
  | synthesis (error : SynthesisError)
  deriving DecidableEq, Repr

/-- Why no machine is synthesized from what a supplier hands out. -/
inductive ReaderError where
  /-- The supplier failed. -/
  | io (reason : String)
  /-- The supplier does not hand out a description. -/
  | json (error : JsonError)
  /-- No machine is synthesized from the description. -/
  | synthesis (error : SynthesisError)
  deriving DecidableEq, Repr

def malformedMessage (error : JsonError) : String := "Malformed configuration: " ++ error.message ++ "."

def SliceError.message : SliceError → String
  | json error => malformedMessage error
  | synthesis error => error.message

def ReaderError.message : ReaderError → String
  | io reason => reason
  | json error => malformedMessage error
  | synthesis error => error.message

/-- A failure of the supplier comes out of the library, but is not about the document. -/
def ReaderError.ofJson (error : JsonError) : ReaderError :=
  match error.fault with
  | .supply reason => io reason
  | _ => json error

/-- Synthesize the machine described by a document. -/
def synthesizeSlice (library : Library) (bytes : List UInt8) : Except SliceError Table := do
  let join ← (library.fromSlice joinShape bytes).mapError .json
  join.synthesize.mapError .synthesis

/-- Synthesize the machine described by the document that a supplier hands out. -/
def synthesizeReader (library : Library) (supplier : Supplier) : Except ReaderError Table := do
  let join ← (library.fromReader joinShape supplier).mapError .ofJson
  join.synthesize.mapError .synthesis

end StreamSplice.Document
