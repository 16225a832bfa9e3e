import Mathlib.Data.List.Forall2
import Mathlib.Data.List.Nodup
import StreamSplice.Document.Codec
import StreamSplice.Proofs.Phrasebook

/-! Descriptions survive being written and read. Which values of documents describe a value of a
declared type follows from the declaration, and the proofs go by induction on it. -/
namespace StreamSplice.Document

mutual

/-- Whether all numbers in a value of a declared type are sizes. -/
def Shape.InRange : {α : Type} → Shape α → α → Prop
  | _, .size, n => n ≤ maxSize
  | _, .optionalSize, n? => ∀ n, n? = some n → n ≤ maxSize
  | _, .sizes, set => ∀ n ∈ set, n ≤ maxSize
  | _, .list item, as => ∀ a ∈ as, item.InRange a
  | _, .record _ _ fields, a => fields.InRange a

def Fields.InRange : {α β : Type} → {partly : α → β} → Fields α partly → α → Prop
  | _, _, _, .done, _ => True
  | _, _, _, .field _ shape _ get rest, a => shape.InRange (get a) ∧ rest.InRange a

end

mutual

/-- Whether a value of a document describes one of a declared type. Sets are listed in any order
and with repetitions. A record is given by its members in any order, each field once and others
among them, or as the list of its fields. -/
def Shape.Describes : {α : Type} → Shape α → α → Value → Prop
  | _, .size, n, value => value = .number n
  | _, .optionalSize, n?, value => value = n?.elim .null Value.number
  | _, .sizes, set, value =>
      ∃ numbers, .ofList numbers = set ∧ value = .list (numbers.map Value.number)
  | _, .list item, as, value => ∃ items, value = .list items ∧ List.Forall₂ item.Describes as items
  | _, .record _ _ fields, a, value =>
      (∃ members, value = .named members ∧ fields.EachOnce members ∧ fields.Named a members) ∨
        ∃ items, value = .list items ∧ fields.Listed a items

/-- Whether members describe the fields of a record. A field that is left out is at its default. -/
def Fields.Named : {α β : Type} → {partly : α → β} → Fields α partly → α →
    List (String × Value) → Prop
  | _, _, _, .done, _, _ => True
  | _, _, _, .field name shape default? get rest, a, members =>
      ((∃ value, (name, value) ∈ members ∧ shape.Describes (get a) value) ∨
        name ∉ members.map Prod.fst ∧ default? = some (get a)) ∧ rest.Named a members

/-- Whether items describe the fields of a record. Fields past the last item are at their
defaults. -/
def Fields.Listed : {α β : Type} → {partly : α → β} → Fields α partly → α → List Value → Prop
  | _, _, _, .done, _, items => items = []
  | _, _, _, .field _ _ default? get rest, a, [] => default? = some (get a) ∧ rest.Listed a []
  | _, _, _, .field _ shape _ get rest, a, item :: items =>
      shape.Describes (get a) item ∧ rest.Listed a items

end

section Reading

/-- A name that only one member has leads to that member. -/
theorem lookup_of_count_le_one {members : List (String × Value)} {name : String} {value : Value}
    (hOnce : (members.map Prod.fst).count name ≤ 1) (hMem : (name, value) ∈ members) :
    members.lookup name = some value := by
  obtain ⟨before, after, rfl⟩ := List.append_of_mem hMem
  rw [List.map_append, List.map_cons, List.count_append, List.count_cons_self] at hOnce
  have hBefore : name ∉ before.map Prod.fst := List.not_mem_of_count_eq_zero (by omega)
  refine List.lookup_eq_some_iff.mpr ⟨before, after, rfl, fun member hMember => ?_⟩
  refine bne_iff_ne.mpr ?_
  rintro rfl
  exact hBefore (List.mem_map_of_mem hMember)

theorem lookup_of_not_mem {members : List (String × Value)} {name : String}
    (h : name ∉ members.map Prod.fst) : members.lookup name = none := by
  refine List.lookup_eq_none_iff.mpr fun member hMember => bne_iff_ne.mpr ?_
  rintro rfl
  exact h (List.mem_map_of_mem hMember)

variable {codec : Codec}

theorem mapM_read_numbers (hCodec : codec.Derived) {numbers : List Nat}
    (h : ∀ n ∈ numbers, n ≤ maxSize) :
    (numbers.map Value.number).mapM (codec.read .size) = some numbers := by
  induction numbers with
  | nil => rfl
  | cons n numbers ih =>
      obtain ⟨hn, hRest⟩ := List.forall_mem_cons.mp h
      rw [List.map_cons, List.mapM_cons, hCodec.read_size hn, ih hRest]
      rfl

mutual

/-- What describes a value is read as that value. -/
theorem read_of_describes (hCodec : codec.Derived) : ∀ {α : Type} {shape : Shape α} {a : α}
    {value : Value}, shape.InRange a → shape.Describes a value → codec.read shape value = some a
  | _, .size, _, _, hRange, h => by
      rw [h]
      exact hCodec.read_size hRange
  | _, .optionalSize, none, _, _, h => by
      rw [h]
      exact hCodec.read_absent
  | _, .optionalSize, some _, _, hRange, h => by
      rw [h]
      exact hCodec.read_present (hRange _ rfl)
  | _, .sizes, _, _, hRange, h => by
      obtain ⟨numbers, rfl, rfl⟩ := h
      have hNumbers : ∀ n ∈ numbers, n ≤ maxSize := fun n hMem =>
        hRange n (SortedSet.mem_ofList.mpr hMem)
      rw [hCodec.read_sizes, mapM_read_numbers hCodec hNumbers]
      rfl
  | _, .list item, as, _, hRange, h => by
      obtain ⟨items, rfl, hItems⟩ := h
      rw [hCodec.read_list]
      induction hItems with
      | nil => rfl
      | cons hItem _ ih =>
          obtain ⟨hFirst, hRest⟩ := List.forall_mem_cons.mp hRange
          rw [List.mapM_cons, read_of_describes hCodec hFirst hItem, ih hRest]
          rfl
  | _, .record _ build fields, a, _, hRange, h => by
      rcases h with ⟨members, rfl, hOnce, hNamed⟩ | ⟨items, rfl, hListed⟩
      · rw [hCodec.read_named hOnce]
        exact readNamed_of_named hCodec hRange hOnce hNamed
      · rw [hCodec.read_listed]
        exact readListed_of_listed hCodec hRange hListed

/-- Members that describe the fields to come complete what has been built. -/
theorem readNamed_of_named (hCodec : codec.Derived) : ∀ {α β : Type} {partly : α → β}
    {fields : Fields α partly} {a : α} {members : List (String × Value)}, fields.InRange a →
    fields.EachOnce members → fields.Named a members →
    codec.readNamed (partly a) fields members = some a
  | _, _, _, .done, _, _, _, _, _ => rfl
  | _, _, _, .field name shape default? get rest, a, members, hRange, hOnce, h => by
      obtain ⟨hName, hNames⟩ := List.forall_mem_cons.mp hOnce
      obtain ⟨⟨value, hMem, hValue⟩ | ⟨hNone, hDefault⟩, hRest⟩ := h
      · rw [Codec.readNamed, lookup_of_count_le_one hName hMem]
        simp only [read_of_describes hCodec hRange.1 hValue]
        exact readNamed_of_named hCodec hRange.2 hNames hRest
      · rw [Codec.readNamed, lookup_of_not_mem hNone, hDefault]
        exact readNamed_of_named hCodec hRange.2 hNames hRest

/-- Items that describe the fields to come complete what has been built. -/
theorem readListed_of_listed (hCodec : codec.Derived) : ∀ {α β : Type} {partly : α → β}
    {fields : Fields α partly} {a : α} {items : List Value}, fields.InRange a →
    fields.Listed a items → codec.readListed (partly a) fields items = some a
  | _, _, _, .done, _, _, _, h => by
      rw [h]
      rfl
  | _, _, _, .field _ _ _ _ rest, a, [], hRange, h => by
      rw [Codec.readListed, h.1]
      exact readListed_of_listed hCodec hRange.2 h.2
  | _, _, _, .field _ _ _ _ rest, a, _ :: _, hRange, h => by
      rw [Codec.readListed, read_of_describes hCodec hRange.1 h.1]
      exact readListed_of_listed hCodec hRange.2 h.2

end

end Reading

section Writing

mutual

/-- Whether the fields of each declared record have names of their own. -/
def Shape.Distinct : {α : Type} → Shape α → Prop
  | _, .size => True
  | _, .optionalSize => True
  | _, .sizes => True
  | _, .list item => item.Distinct
  | _, .record _ _ fields => fields.names.Nodup ∧ fields.Distinct

def Fields.Distinct : {α β : Type} → {partly : α → β} → Fields α partly → Prop
  | _, _, _, .done => True
  | _, _, _, .field _ shape _ _ rest => shape.Distinct ∧ rest.Distinct

end

variable {codec : Codec}

theorem map_fst_writeFields : ∀ {α β : Type} {partly : α → β} (fields : Fields α partly) (a : α),
    (codec.writeFields fields a).map Prod.fst = fields.names
  | _, _, _, .done, _ => rfl
  | _, _, _, .field name _ _ _ rest, a => congrArg (name :: ·) (map_fst_writeFields rest a)

mutual

/-- What is written of a value describes it. -/
theorem describes_write (hCodec : codec.Derived) : ∀ {α : Type} {shape : Shape α} (a : α),
    shape.Distinct → shape.Describes a (codec.write shape a)
  | _, .size, n, _ => hCodec.write_size n
  | _, .optionalSize, n?, _ => hCodec.write_optionalSize n?
  | _, .sizes, set, _ => by
      refine ⟨set.toList, SortedSet.ext_mem fun _ => SortedSet.mem_ofList, ?_⟩
      rw [hCodec.write_sizes]
      exact congrArg Value.list (List.map_congr_left fun n _ => hCodec.write_size n)
  | _, .list item, as, hDistinct => by
      refine ⟨_, hCodec.write_list item as, ?_⟩
      rw [List.forall₂_map_right_iff, List.forall₂_same]
      exact fun a _ => describes_write hCodec a hDistinct
  | _, .record _ _ fields, a, hDistinct => by
      refine .inl ⟨_, hCodec.write_record a, fun name _ => ?_, ?_⟩
      · rw [map_fst_writeFields]
        exact List.nodup_iff_count_le_one.mp hDistinct.1 name
      · exact named_of_subset hCodec hDistinct.2 fun _ hMem => hMem

/-- Members that are written describe the fields, also among others. -/
theorem named_of_subset (hCodec : codec.Derived) : ∀ {α β : Type} {partly : α → β}
    {fields : Fields α partly} {a : α} {members : List (String × Value)}, fields.Distinct →
    (∀ member ∈ codec.writeFields fields a, member ∈ members) → fields.Named a members
  | _, _, _, .done, _, _, _, _ => trivial
  | _, _, _, .field name shape _ get rest, a, members, hDistinct, h => by
      obtain ⟨hFirst, hRest⟩ := List.forall_mem_cons.mp h
      exact ⟨.inl ⟨_, hFirst, describes_write hCodec (get a) hDistinct.1⟩,
        named_of_subset hCodec hDistinct.2 hRest⟩

end

theorem distinct_joinShape : joinShape.Distinct := by
  refine ⟨by decide, trivial, trivial, ⟨by decide, trivial, trivial, ⟨by decide, ?_⟩, trivial⟩, ?_⟩
  · exact ⟨trivial, trivial, trivial⟩
  · exact ⟨trivial, trivial⟩

end Writing

/-- A join of one stream, whose frames start at either offset. -/
def eitherOffset : Join := ⟨2, 0, [⟨8, .ofList [0, 1], ⟨3, none⟩⟩], Join.defaultMaxLayouts⟩

section Phrases

instance (byte : UInt8) : Decidable (IsPlain byte) := inferInstanceAs (Decidable (_ ∧ _ ∧ _))

theorem quotes_plain {contents : List UInt8} (h : contents.all (IsPlain ·)) :
    Quotes contents (contents ++ ['"'.toUInt8]) := by
  induction contents with
  | nil => exact .close
  | cons byte contents ih =>
      obtain ⟨hByte, hContents⟩ := Bool.and_eq_true_iff.mp (List.all_cons.symm.trans h)
      exact .plain (of_decide_eq_true hByte) (ih hContents)

/-- A member with nothing between its tokens, and a name that needs no escapes. -/
theorem memberText_plain {name : String} {value : Value} {text : List UInt8}
    (hName : (bytesOf name).all (IsPlain ·)) (hText : Spells value text) :
    MemberText Spells (some name, value)
      ('"'.toUInt8 :: ((bytesOf name ++ ['"'.toUInt8]) ++ (([] ++ [':'.toUInt8]) ++ ([] ++ text)))) :=
  .mk (.known (quotes_plain hName)) (.mk nofun) nofun hText

theorem items_first {α : Type} {Item : α → List UInt8 → Prop} {enclosing : Enclosing} {a : α}
    {as : List α} {text rest : List UInt8} (hItem : Item a text)
    (hRest : Items Item enclosing false as rest) :
    Items Item enclosing true (a :: as) ([] ++ ([] ++ (text ++ rest))) :=
  .item .first nofun hItem hRest

theorem items_next {α : Type} {Item : α → List UInt8 → Prop} {enclosing : Enclosing} {a : α}
    {as : List α} {text rest : List UInt8} (hItem : Item a text)
    (hRest : Items Item enclosing false as rest) :
    Items Item enclosing false (a :: as) (([] ++ [','.toUInt8]) ++ ([] ++ (text ++ rest))) :=
  .item (.comma (.mk nofun)) nofun hItem hRest

theorem items_close {α : Type} {Item : α → List UInt8 → Prop} (enclosing : Enclosing)
    (first : Bool) : Items Item enclosing first [] ([] ++ [enclosing.closing.toUInt8]) :=
  .close (.mk nofun)

/-- The description as it is written. -/
def writtenEitherOffset : Spelling where
  value := .named [("word_bytes", .number 2), ("output_offset", .number 0),
    ("streams", .list [.named [("element_bits", .number 8),
      ("start_offsets", .list [.number 0, .number 1]),
      ("length", .named [("min", .number 3), ("max", .null)])]]),
    ("max_frame_formats", .number 65536)]
  text := bytesOf <|
    "\x7b\"word_bytes\":2,\"output_offset\":0,\"streams\":[\x7b\"element_bits\":8," ++
    "\"start_offsets\":[0,1],\"length\":\x7b\"min\":3,\"max\":null\x7d\x7d]," ++
    "\"max_frame_formats\":65536\x7d"
  spells := by
    have hNone : Blank [] := nofun
    have hOffsets : Spells (.list [.number 0, .number 1]) _ :=
      .list (items_first (.number 0) (items_next (.number 1) (items_close .list false)))
    have hLengths : Spells (.record [(some "min", .number 3), (some "max", .null)]) _ :=
      .record (items_first (memberText_plain (by decide) (.number 3))
        (items_next (memberText_plain (by decide) .null) (items_close .record false)))
    have hStream : Spells (.record [(some "element_bits", .number 8),
        (some "start_offsets", _), (some "length", _)]) _ :=
      .record (items_first (memberText_plain (by decide) (.number 8))
        (items_next (memberText_plain (by decide) hOffsets)
          (items_next (memberText_plain (by decide) hLengths) (items_close .record false))))
    have hJoin : Spells (.record [(some "word_bytes", .number 2),
        (some "output_offset", .number 0), (some "streams", .list [_]),
        (some "max_frame_formats", .number 65536)]) _ :=
      .record (items_first (memberText_plain (by decide) (.number 2))
        (items_next (memberText_plain (by decide) (.number 0))
          (items_next (memberText_plain (by decide)
              (.list (items_first hStream (items_close .list false))))
            (items_next (memberText_plain (by decide) (.number 65536))
              (items_close .record false)))))
    exact .mk hNone hJoin hNone

/-- The same description out of order, with a member that means nothing. The stream is a list, its
offsets are repeated, and what is left out is at its default. -/
def looseEitherOffset : Spelling where
  value := .named [("x", .list [.record []]),
    ("streams", .list [.list [.number 8, .list [.number 1, .number 0, .number 1],
      .named [("min", .number 3)]]]),
    ("word_bytes", .number 2)]
  text := bytesOf
    " \x7b\"x\":[\x7b\x7d],\"streams\":[[8,[1,0,1],\x7b\"min\":3\x7d]], \"word_bytes\" :2\x7d"
  spells := by
    have hNone : Blank [] := nofun
    have hSpace : Blank [' '.toUInt8] := fun _ h => List.mem_singleton.mp h ▸ List.mem_cons_self
    have hUnknown : Spells (.list [.record []]) _ :=
      .list (items_first (.record (items_close .record true)) (items_close .list false))
    have hOffsets : Spells (.list [.number 1, .number 0, .number 1]) _ :=
      .list (items_first (.number 1) (items_next (.number 0) (items_next (.number 1)
        (items_close .list false))))
    have hLengths : Spells (.record [(some "min", .number 3)]) _ :=
      .record (items_first (memberText_plain (by decide) (.number 3)) (items_close .record false))
    have hStream : Spells (.list [.number 8, _, _]) _ :=
      .list (items_first (.number 8) (items_next hOffsets (items_next hLengths
        (items_close .list false))))
    have hStreams : Spells (.list [_]) _ :=
      .list (items_first hStream (items_close .list false))
    have hWordBytes : MemberText Spells (some "word_bytes", .number 2) _ :=
      .mk (.known (quotes_plain (by decide))) (.mk hSpace) hNone (.number 2)
    have hJoin : Spells (.record [(some "x", _), (some "streams", _), (some "word_bytes", _)]) _ :=
      .record (items_first (memberText_plain (by decide) hUnknown)
        (items_next (memberText_plain (by decide) hStreams)
          (.item (.comma (.mk hNone)) hSpace hWordBytes (items_close .record false))))
    exact .mk hSpace hJoin hNone

end Phrases

theorem inRange_eitherOffset : joinShape.InRange eitherOffset := by
  have hSize (n : Nat) (h : n ≤ maxSize) : Shape.size.InRange n := h
  refine ⟨hSize 2 (by decide), hSize 0 (by decide), fun stream hMem => ?_,
    hSize 65536 (by decide), trivial⟩
  rw [List.mem_singleton.mp hMem]
  refine ⟨hSize 8 (by decide), fun offset hOffset => ?_, ⟨hSize 3 (by decide), nofun, trivial⟩,
    trivial⟩
  have hOffset : offset ∈ [0, 1] := SortedSet.mem_ofList.mp hOffset
  exact (by decide : ∀ offset ∈ [0, 1], offset ≤ maxSize) offset hOffset

theorem describes_looseEitherOffset :
    joinShape.Describes eitherOffset looseEitherOffset.value := by
  have hLengths : lengthsShape.Describes ⟨3, none⟩ (.named [("min", .number 3)]) :=
    .inl ⟨_, rfl, show ∀ name ∈ ["min", "max"], ["min"].count name ≤ 1 by decide,
      .inl ⟨_, List.mem_singleton.mpr rfl, rfl⟩, .inr ⟨by decide, rfl⟩, trivial⟩
  have hStream : streamShape.Describes ⟨8, .ofList [0, 1], ⟨3, none⟩⟩
      (.list [.number 8, .list [.number 1, .number 0, .number 1], .named [("min", .number 3)]]) :=
    .inr ⟨_, rfl, rfl, ⟨[1, 0, 1], rfl, rfl⟩, hLengths, rfl⟩
  have hStreams : (Shape.list streamShape).Describes eitherOffset.streams (.list [.list
      [.number 8, .list [.number 1, .number 0, .number 1], .named [("min", .number 3)]]]) :=
    ⟨_, rfl, .cons hStream .nil⟩
  refine .inl ⟨_, rfl, ?_, .inl ⟨_, .tail _ (.tail _ (.head _)), rfl⟩, .inr ⟨by decide, rfl⟩,
    .inl ⟨_, .tail _ (.head _), hStreams⟩, .inr ⟨by decide, rfl⟩, trivial⟩
  show ∀ name ∈ ["word_bytes", "output_offset", "streams", "max_frame_formats"],
    ["x", "streams", "word_bytes"].count name ≤ 1
  decide

end StreamSplice.Document
