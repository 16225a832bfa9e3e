import StreamSplice.Document.Library
import StreamSplice.Document.Spelling

/-! What values of declared types are in documents. Reading a record takes its fields from the
members with their names, or from a list in their order, and a field that is left out is at its
default. Writing a record names all fields in their order. -/
namespace StreamSplice.Document

/-- A record whose members all have names. -/
def Value.named (members : List (String × Value)) : Value :=
  .record (members.map fun member => (some member.1, member.2))

/-- Whether no field has more than one member. Members that are not fields may repeat. -/
def Fields.EachOnce {α β : Type} {partly : α → β} (fields : Fields α partly)
    (members : List (String × Value)) : Prop :=
  ∀ name ∈ fields.names, (members.map Prod.fst).count name ≤ 1

/-- How the declarations of types are read from the values of documents, and written as such. -/
structure Codec where
  read {α : Type} (shape : Shape α) (value : Value) : Option α
  write {α : Type} (shape : Shape α) (a : α) : Value

namespace Codec

variable (codec : Codec)

/-- Build a record from its members. -/
def readNamed : {α β : Type} → {partly : α → β} → (build : β) → Fields α partly →
    (members : List (String × Value)) → Option α
  | _, _, _, record, .done, _ => some record
  | _, _, _, build, .field name shape default? _ rest, members => do
      let a ← match members.lookup name with
        | some value => codec.read shape value
        | none => default?
      readNamed (build a) rest members

/-- Build a record from a list of its fields. -/
def readListed : {α β : Type} → {partly : α → β} → (build : β) → Fields α partly →
    (items : List Value) → Option α
  | _, _, _, record, .done, [] => some record
  | _, _, _, _, .done, _ :: _ => none
  | _, _, _, build, .field _ _ default? _ rest, [] => do
      readListed (build (← default?)) rest []
  | _, _, _, build, .field _ shape _ _ rest, item :: items => do
      readListed (build (← codec.read shape item)) rest items

/-- The members of a record, one for each field. -/
def writeFields : {α β : Type} → {partly : α → β} → Fields α partly → α → List (String × Value)
  | _, _, _, .done, _ => []
  | _, _, _, .field name shape _ get rest, a =>
      (name, codec.write shape (get a)) :: writeFields rest a

/-- What is documented of the reading and writing that is derived from declarations: sizes are
natural numbers within 64 bits, and a size that is absent is null; lists are read item by item, and
sets like lists; a record has a field at most once, and other members of it are ignored. -/
structure Derived : Prop where
  read_size {n : Nat} (h : n ≤ maxSize) : codec.read .size (.number n) = some n
  read_absent : codec.read .optionalSize .null = some none
  read_present {n : Nat} (h : n ≤ maxSize) :
    codec.read .optionalSize (.number n) = some (some n)
  read_sizes (items : List Value) : codec.read .sizes (.list items) =
    (items.mapM (codec.read .size)).map SortedSet.ofList
  read_list {α : Type} (item : Shape α) (items : List Value) :
    codec.read (.list item) (.list items) = items.mapM (codec.read item)
  read_named {α β : Type} {name : String} {build : β} {fields : Fields α fun _ => build}
    {members : List (String × Value)} (h : fields.EachOnce members) :
    codec.read (.record name build fields) (.named members) =
      codec.readNamed build fields members
  read_listed {α β : Type} {name : String} {build : β} {fields : Fields α fun _ => build}
    (items : List Value) :
    codec.read (.record name build fields) (.list items) = codec.readListed build fields items
  write_size (n : Nat) : codec.write .size n = .number n
  write_optionalSize (n? : Option Nat) :
    codec.write .optionalSize n? = n?.elim .null Value.number
  write_sizes (set : SortedSet Nat) :
    codec.write .sizes set = .list (set.toList.map (codec.write .size))
  write_list {α : Type} (item : Shape α) (as : List α) :
    codec.write (.list item) as = .list (as.map (codec.write item))
  write_record {α β : Type} {name : String} {build : β} {fields : Fields α fun _ => build} (a : α) :
    codec.write (.record name build fields) a = .named (codec.writeFields fields a)

end Codec

namespace Library

variable {α : Type} (library : Library) (codec : Codec) (shape : Shape α)

/-- What is documented of reading a document: the outcome is what its value is read as, however the
value is spelled. -/
def Reads (spelling : Spelling) : Prop :=
  ∀ a, codec.read shape spelling.value = some a → library.fromSlice shape spelling.text = .ok a

/-- What is documented of writing a document: it is a spelling of the value that is written. -/
def Writes (a : α) (spelling : Spelling) : Prop :=
  spelling.value = codec.write shape a ∧ spelling.text = library.toText shape a

end Library

end StreamSplice.Document
