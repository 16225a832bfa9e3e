import StreamSplice.Document.Codec
import StreamSplice.Document.Scanner
import StreamSplice.Proofs.Fallible

/-! A library that knows some documents by heart. It does all that is documented of reading and
writing as far as these documents go, and can read no others. -/
namespace StreamSplice.Document

namespace Codec

def readSize : Value → Option Nat
  | .number n => if n ≤ maxSize then some n else none
  | _ => none

mutual

/-- Read a value along its declaration. Of several members for a field the first one is taken. -/
def readAlong : {α : Type} → Shape α → Value → Option α
  | _, .size, value => readSize value
  | _, .optionalSize, value =>
      match value with
      | .null => some none
      | value => (readSize value).map some
  | _, .sizes, value =>
      match value with
      | .list items => (items.mapM readSize).map SortedSet.ofList
      | _ => none
  | _, .list item, value =>
      match value with
      | .list items => items.mapM (readAlong item)
      | _ => none
  | _, .record _ build fields, value =>
      match value with
      | .record members => readNamedAlong build fields <| members.filterMap fun member =>
          member.1.map fun name => (name, member.2)
      | .list items => readListedAlong build fields items
      | _ => none

def readNamedAlong : {α β : Type} → {partly : α → β} → β → Fields α partly →
    List (String × Value) → Option α
  | _, _, _, record, .done, _ => some record
  | _, _, _, build, .field name shape default? _ rest, members => do
      let a ← match members.lookup name with
        | some value => readAlong shape value
        | none => default?
      readNamedAlong (build a) rest members

def readListedAlong : {α β : Type} → {partly : α → β} → β → Fields α partly →
    List Value → Option α
  | _, _, _, record, .done, [] => some record
  | _, _, _, _, .done, _ :: _ => none
  | _, _, _, build, .field _ _ default? _ rest, [] => do
      readListedAlong (build (← default?)) rest []
  | _, _, _, build, .field _ shape _ _ rest, item :: items => do
      readListedAlong (build (← readAlong shape item)) rest items

end

mutual

/-- Write a value along its declaration. -/
def writeAlong : {α : Type} → Shape α → α → Value
  | _, .size, n => .number n
  | _, .optionalSize, n? => n?.elim .null Value.number
  | _, .sizes, set => .list (set.toList.map Value.number)
  | _, .list item, as => .list (as.map (writeAlong item))
  | _, .record _ _ fields, a => .named (writeFieldsAlong fields a)

def writeFieldsAlong : {α β : Type} → {partly : α → β} → Fields α partly → α →
    List (String × Value)
  | _, _, _, .done, _ => []
  | _, _, _, .field name shape _ get rest, a =>
      (name, writeAlong shape (get a)) :: writeFieldsAlong rest a

end

/-- Reading and writing along the declarations. -/
def along : Codec where
  read := readAlong
  write := writeAlong

theorem readNamed_along : ∀ {α β : Type} {partly : α → β} (build : β) (fields : Fields α partly)
    (members : List (String × Value)),
    along.readNamed build fields members = readNamedAlong build fields members
  | _, _, _, _, .done, _ => rfl
  | _, _, _, build, .field _ _ _ _ rest, members => by
      simp only [readNamed, readNamedAlong, fun a => readNamed_along (build a) rest members]
      rfl

theorem readListed_along : ∀ {α β : Type} {partly : α → β} (build : β) (fields : Fields α partly)
    (items : List Value),
    along.readListed build fields items = readListedAlong build fields items
  | _, _, _, _, .done, [] => rfl
  | _, _, _, _, .done, _ :: _ => rfl
  | _, _, _, build, .field _ _ _ _ rest, [] => by
      simp only [readListed, readListedAlong, fun a => readListed_along (build a) rest []]
  | _, _, _, build, .field _ _ _ _ rest, _ :: items => by
      simp only [readListed, readListedAlong, fun a => readListed_along (build a) rest items]
      rfl

theorem writeFields_along : ∀ {α β : Type} {partly : α → β} (fields : Fields α partly) (a : α),
    along.writeFields fields a = writeFieldsAlong fields a
  | _, _, _, .done, _ => rfl
  | _, _, _, .field _ _ _ _ rest, a => by
      rw [writeFields, writeFieldsAlong, writeFields_along rest a]
      rfl

theorem derived_along : along.Derived where
  read_size h := if_pos h
  read_absent := rfl
  read_present h := congrArg (Option.map some) (if_pos h)
  read_sizes _ := rfl
  read_list _ _ := rfl
  read_named {_ _ _ build fields members} _ := by
    rw [readNamed_along]
    show readNamedAlong build fields (List.filterMap _ (List.map _ members)) = _
    rw [List.filterMap_map]
    congr 1
    exact List.filterMap_some
  read_listed {_ _ _ build fields} items := (readListed_along build fields items).symm
  write_size _ := rfl
  write_optionalSize _ := rfl
  write_sizes _ := rfl
  write_list _ _ := rfl
  write_record {_ _ _ _ fields} a := congrArg Value.named (writeFields_along fields a).symm

end Codec

/-- A scanner that knows some texts, and the values that they stand for. Its state is what it has
seen, and a byte that leads on to none of the texts is malformed. -/
def phrases (codec : Codec) (known : List (List UInt8 × Value)) {α : Type} (shape : Shape α) :
    Scanner α where
  State := List UInt8
  start := []
  step seen byte :=
    if known.any fun phrase => (seen ++ [byte]).isPrefixOf phrase.1 then .ok (seen ++ [byte])
    else .error (.malformed "expected value")
  finish seen :=
    match (known.lookup seen).bind (codec.read shape) with
    | some a => .ok a
    | none => .error (.truncated "EOF while parsing a value")

/-- Faults of a text are placed at its first byte. -/
def Fault.placed : Fault → JsonError
  | .supply reason => ⟨.supply reason, 0, 0⟩
  | fault => ⟨fault, 1, 1⟩

/-- The library that knows some texts. It writes the first of them. -/
def phrasebook (codec : Codec) (known : List (List UInt8 × Value)) : Library where
  fromSlice shape bytes := ((phrases codec known shape).scan bytes).mapError Fault.placed
  fromReader shape supplier :=
    ((phrases codec known shape).demand supplier.ending [] supplier.pieces).mapError Fault.placed
  toText _ _ := (known.head?.map Prod.fst).getD []

section Phrases

variable {codec : Codec} {known : List (List UInt8 × Value)} {α : Type} {shape : Shape α}

theorem mapError_placed (outcome : Except Fault α) :
    (outcome.mapError Fault.placed).mapError JsonError.fault = outcome := by
  cases outcome with
  | ok a => rfl
  | error fault => cases fault <;> rfl

theorem phrasebook_scansBy (codec : Codec) (known : List (List UInt8 × Value)) (shape : Shape α) :
    (phrasebook codec known).ScansBy shape (phrases codec known shape) where
  slice _ := mapError_placed _
  reader _ := mapError_placed _
  step h := by
    simp only [phrases] at h
    split at h
    · cases h
    · cases h
      trivial
  finish h reason := by
    simp only [phrases] at h
    split at h
    · cases h
    · cases h
      nofun

/-- A text that is known is looked at up to its end. -/
theorem feed_phrases {text : List UInt8} {value : Value} (h : (text, value) ∈ known)
    {seen rest : List UInt8} (hText : seen ++ rest = text) :
    (phrases codec known shape).feed seen rest = .ok text := by
  induction rest generalizing seen with
  | nil => exact congrArg Except.ok ((List.append_nil seen).symm.trans hText)
  | cons byte rest ih =>
      have hNext : (seen ++ [byte]) ++ rest = text := by simpa using hText
      have hLeads : known.any (fun phrase => (seen ++ [byte]).isPrefixOf phrase.1) = true :=
        List.any_eq_true.mpr ⟨_, h, List.isPrefixOf_iff_prefix.mpr ⟨rest, hNext⟩⟩
      have hStep : (phrases codec known shape).step seen byte = .ok (seen ++ [byte]) :=
        if_pos hLeads
      show (phrases codec known shape).step seen byte >>= _ = _
      rw [hStep]
      exact ih hNext

/-- A text that is known is read as the value it stands for. -/
theorem phrasebook_reads {spelling : Spelling}
    (h : known.lookup spelling.text = some spelling.value) :
    (phrasebook codec known).Reads codec shape spelling := by
  intro a hRead
  have hMem : (spelling.text, spelling.value) ∈ known := by
    obtain ⟨before, after, rfl, _⟩ := List.lookup_eq_some_iff.mp h
    simp
  have hScan : (phrases codec known shape).scan spelling.text = .ok a := by
    have hFeed : (phrases codec known shape).feed [] spelling.text = .ok spelling.text :=
      feed_phrases hMem rfl
    refine bind_eq_ok.mpr ⟨spelling.text, hFeed, ?_⟩
    simp only [phrases, h, Option.bind_some, hRead]
  show ((phrases codec known shape).scan spelling.text).mapError Fault.placed = .ok a
  rw [hScan]
  rfl

end Phrases

end StreamSplice.Document
