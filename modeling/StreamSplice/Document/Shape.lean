import StreamSplice.Join

/-! The declared types of a description. A declaration names the fields of a record in their order
and tells which of them may be left out of a document, and what they are then. What is read from
documents and written to them follows from the declarations. -/
namespace StreamSplice.Document

mutual

/-- Declarations of types. A record is built from the values of its fields. -/
inductive Shape : Type → Type 1 where
  | size : Shape Nat
  | optionalSize : Shape (Option Nat)
  | sizes : Shape (SortedSet Nat)
  | list {α : Type} (item : Shape α) : Shape (List α)
  | record {α β : Type} (name : String) (build : β) (fields : Fields α fun _ => build) : Shape α

/-- The fields of a record that come after some others. What is built from the others is `partly`,
and with these fields it is the record itself. -/
inductive Fields : (α : Type) → {β : Type} → (partly : α → β) → Type 1 where
  | done {α : Type} : Fields α fun a => a
  | field {α β γ : Type} {partly : α → γ → β} (name : String) (shape : Shape γ)
      (default? : Option γ) (get : α → γ) (rest : Fields α fun a => partly a (get a)) :
      Fields α partly

end

/-- The names of fields, in their order. -/
def Fields.names : {α β : Type} → {partly : α → β} → Fields α partly → List String
  | _, _, _, .done => []
  | _, _, _, .field name _ _ _ rest => name :: rest.names

/-- A range of lengths has no longest one unless a document says so. -/
def lengthsShape : Shape Lengths :=
  .record "LengthRange" Lengths.mk <|
    .field "min" .size none (·.shortest) <|
    .field "max" .optionalSize (some none) (·.longest) .done

def streamShape : Shape Stream :=
  .record "StreamDescriptor" Stream.mk <|
    .field "element_bits" .size none (·.elementBits) <|
    .field "start_offsets" .sizes none (·.startOffsets) <|
    .field "length" lengthsShape none (·.lengths) .done

/-- The output starts at the first byte of a word unless a document says otherwise. -/
def joinShape : Shape Join :=
  .record "JoinConfig" Join.mk <|
    .field "word_bytes" .size none (·.wordBytes) <|
    .field "output_offset" .size (some 0) (·.outputOffset) <|
    .field "streams" (.list streamShape) none (·.streams) <|
    .field "max_frame_formats" .size (some Join.defaultMaxLayouts) (·.maxLayouts) .done

end StreamSplice.Document
