import StreamSplice.Document.Request
import StreamSplice.Document.Scanner
import StreamSplice.Proofs.Phrasebook

/-! Synthesis from a supplier that may fail. What a scanner makes of some bytes does not depend on
how they are cut into pieces, and a fault in them remains whatever comes after them. -/
namespace StreamSplice.Document

namespace Scanner

variable {α : Type} {scanner : Scanner α} {state : scanner.State} {fault : Fault}

theorem feed_append (state : scanner.State) (bytes more : List UInt8) :
    scanner.feed state (bytes ++ more) =
      scanner.feed state bytes >>= fun state => scanner.feed state more :=
  List.foldlM_append

/-- Bytes are looked at alike in one piece and in several. -/
theorem demand_eq (ending : Ending) (state : scanner.State) (pieces : List (List UInt8)) :
    scanner.demand ending state pieces =
      scanner.feed state pieces.flatten >>= fun state => scanner.demand ending state [] := by
  induction pieces generalizing state with
  | nil => rfl
  | cons piece pieces ih =>
      rw [demand, List.flatten_cons, feed_append]
      cases scanner.feed state piece with
      | error fault => rfl
      | ok next => exact ih next

/-- Whatever comes after a fault, the fault remains. -/
theorem scan_append {bytes : List UInt8} (h : scanner.feed scanner.start bytes = .error fault)
    (more : List UInt8) : scanner.scan (bytes ++ more) = .error fault := by
  rw [scan, feed_append, h]
  rfl

end Scanner

/-- A fault of the text is no failure of the supplier. -/
theorem Fault.InText.ne_supply {fault : Fault} (h : fault.InText) (reason : String) :
    fault ≠ .supply reason := by
  rintro rfl
  exact h

namespace Library.ScansBy

variable {α : Type} {library : Library} {shape : Shape α} {scanner : Scanner α}
  (h : library.ScansBy shape scanner)

include h

/-- If a step finds nothing but faults of the text, so do several. -/
theorem feed {state : scanner.State} {bytes : List UInt8} {fault : Fault}
    (hFeed : scanner.feed state bytes = .error fault) : fault.InText := by
  induction bytes generalizing state with
  | nil => cases hFeed
  | cons byte bytes ih =>
      rcases bind_eq_error.mp hFeed with hStep | ⟨next, _, hRest⟩
      · exact h.step hStep
      · exact ih hRest

/-- Only a supplier can fail. -/
theorem scan {bytes : List UInt8} {fault : Fault} (hScan : scanner.scan bytes = .error fault)
    (reason : String) : fault ≠ .supply reason := by
  rcases bind_eq_error.mp hScan with hFeed | ⟨state, _, hFinish⟩
  · exact (h.feed hFeed).ne_supply reason
  · exact h.finish hFinish reason

/-- From a supplier that ends comes what its bytes are. -/
theorem reader_of_complete {supplier : Supplier} (hEnding : supplier.ending = .complete) :
    (library.fromReader shape supplier).mapError JsonError.fault =
      scanner.scan supplier.bytes := by
  rw [h.reader, Scanner.demand_eq, hEnding]
  rfl

/-- From a supplier that fails comes a fault that is in its bytes, or else its failure. -/
theorem reader_of_failed {supplier : Supplier} {reason : String}
    (hEnding : supplier.ending = .failed reason) :
    (library.fromReader shape supplier).mapError JsonError.fault = .error (.supply reason) ∨
      ∃ fault, fault.InText ∧
        (library.fromReader shape supplier).mapError JsonError.fault = .error fault ∧
        ∀ more, (library.fromSlice shape (supplier.bytes ++ more)).mapError JsonError.fault =
          .error fault := by
  rw [h.reader, Scanner.demand_eq, hEnding]
  cases hFeed : scanner.feed scanner.start supplier.pieces.flatten with
  | ok state => exact .inl rfl
  | error fault =>
      exact .inr ⟨fault, h.feed hFeed, rfl, fun more =>
        (h.slice _).trans (Scanner.scan_append hFeed more)⟩

end Library.ScansBy

/-- Why no machine is synthesized, apart from the place of a fault. -/
inductive Refusal where
  | io (reason : String)
  | json (fault : Fault)
  | synthesis (error : SynthesisError)

def SliceError.refusal : SliceError → Refusal
  | json error => .json error.fault
  | synthesis error => .synthesis error

def ReaderError.refusal : ReaderError → Refusal
  | io reason => .io reason
  | json error => .json error.fault
  | synthesis error => .synthesis error

section Synthesis

variable {library : Library} {supplier : Supplier} {fault : Fault}

theorem ReaderError.ofJson_of_ne_supply {error : JsonError}
    (h : ∀ reason, error.fault ≠ .supply reason) : ofJson error = json error := by
  unfold ofJson
  split
  · next reason hSupply => exact absurd hSupply (h reason)
  · rfl

/-- A document that cannot be read is refused for its fault. -/
theorem synthesizeSlice_of_fault {bytes : List UInt8}
    (h : (library.fromSlice joinShape bytes).mapError JsonError.fault = .error fault) :
    ∃ error, synthesizeSlice library bytes = .error (.json error) ∧ error.fault = fault := by
  obtain ⟨error, hError, rfl⟩ := mapError_eq_error.mp h
  refine ⟨error, ?_, rfl⟩
  rw [synthesizeSlice, hError]
  rfl

theorem synthesizeReader_of_fault (hText : ∀ reason, fault ≠ .supply reason)
    (h : (library.fromReader joinShape supplier).mapError JsonError.fault = .error fault) :
    ∃ error, synthesizeReader library supplier = .error (.json error) ∧ error.fault = fault := by
  obtain ⟨error, hError, rfl⟩ := mapError_eq_error.mp h
  refine ⟨error, ?_, rfl⟩
  rw [synthesizeReader, hError]
  exact congrArg Except.error (ReaderError.ofJson_of_ne_supply hText)

theorem synthesizeReader_of_supply {reason : String}
    (h : (library.fromReader joinShape supplier).mapError JsonError.fault =
      .error (.supply reason)) :
    synthesizeReader library supplier = .error (.io reason) := by
  obtain ⟨error, hError, hFault⟩ := mapError_eq_error.mp h
  rw [synthesizeReader, hError]
  refine congrArg Except.error ?_
  rw [ReaderError.ofJson, hFault]

/-- A description is synthesized alike, whatever it was read from. -/
theorem synthesizeSlice_of_ok {bytes : List UInt8} {join : Join}
    (h : library.fromSlice joinShape bytes = .ok join) :
    (synthesizeSlice library bytes).mapError SliceError.refusal =
      join.synthesize.mapError Refusal.synthesis := by
  rw [synthesizeSlice, h]
  show (join.synthesize.mapError SliceError.synthesis).mapError SliceError.refusal = _
  cases join.synthesize <;> rfl

theorem synthesizeReader_of_ok {join : Join}
    (h : library.fromReader joinShape supplier = .ok join) :
    (synthesizeReader library supplier).mapError ReaderError.refusal =
      join.synthesize.mapError Refusal.synthesis := by
  rw [synthesizeReader, h]
  show (join.synthesize.mapError ReaderError.synthesis).mapError ReaderError.refusal = _
  cases join.synthesize <;> rfl

end Synthesis

/-- One description: single bytes in words of a byte. -/
def bytePhrases : List (List UInt8 × Value) :=
  [(bytesOf "\x7b\"word_bytes\":1,\"streams\":[[8,[0],[1,1]]]\x7d",
    .named [("word_bytes", .number 1),
      ("streams", .list [.list [.number 8, .list [.number 0], .list [.number 1, .number 1]]])])]

/-- The description in two pieces, and no more. -/
def wholeSupplier : Supplier where
  pieces := [bytesOf "\x7b\"word_bytes\":1", bytesOf ",\"streams\":[[8,[0],[1,1]]]\x7d"]
  nonempty := by decide
  ending := .complete

/-- The first piece, and a failure. -/
def failingSupplier : Supplier where
  pieces := [bytesOf "\x7b\"word_bytes\":1"]
  nonempty := by decide
  ending := .failed "unplugged"

/-- A byte that no document starts with, and a failure. -/
def garbledSupplier : Supplier where
  pieces := [bytesOf "x"]
  nonempty := by decide
  ending := .failed "unplugged"

end StreamSplice.Document
