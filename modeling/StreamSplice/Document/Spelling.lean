import StreamSplice.Limit

/-! The texts of values in documents. A value has many texts: blanks stand between any two tokens,
and strings may hold escapes. -/
namespace StreamSplice.Document

/-- Values in documents, as far as descriptions are made of them. The members of a record have no
name here if it is not asked for. -/
inductive Value where
  | null
  | number (n : Nat)
  | list (items : List Value)
  | record (members : List (Option String × Value))
  /-- A number that is not natural, a truth value or a string. -/
  | other

/-- The bytes of a text. -/
def bytesOf (text : String) : List UInt8 := text.toUTF8.data.toList

/-- Spaces, tabs and line ends between tokens. -/
def Blank (bytes : List UInt8) : Prop :=
  ∀ byte ∈ bytes, byte ∈ [' '.toUInt8, '\t'.toUInt8, '\n'.toUInt8, '\r'.toUInt8]

/-- A mark, after any blanks. -/
inductive Mark (c : Char) : List UInt8 → Prop where
  | mk {before : List UInt8} (hBefore : Blank before) : Mark c (before ++ [c.toUInt8])

section Text

/-- A hexadecimal digit in either case. -/
def HexDigit (value : Nat) (byte : UInt8) : Prop :=
  value < 16 ∧ (byte = (Nat.digitChar value).toUInt8 ∨ byte = (Nat.digitChar value).toUpper.toUInt8)

/-- A code unit in four hexadecimal digits. -/
inductive CodeUnit : (unit : Nat) → List UInt8 → Prop where
  | mk {a b c d : Nat} {a' b' c' d' : UInt8} (ha : HexDigit a a') (hb : HexDigit b b')
      (hc : HexDigit c c') (hd : HexDigit d d') :
      CodeUnit (((a * 16 + b) * 16 + c) * 16 + d) [a', b', c', d']

/-- The letters of escapes with the characters they stand for. -/
def simpleEscapes : List (Char × Char) := [
  ('"', '"'), ('\\', '\\'), ('/', '/'), ('b', '\x08'), ('f', '\x0c'), ('n', '\n'), ('r', '\r'),
  ('t', '\t')]

/-- A byte of a string that stands for itself. -/
def IsPlain (byte : UInt8) : Prop := 0x20 ≤ byte ∧ byte ≠ '"'.toUInt8 ∧ byte ≠ '\\'.toUInt8

/-- A string that stands for the given bytes, with its closing quote. Code units above and below
the surrogates stand for code points, and a pair of surrogates for one. -/
inductive Quotes : (contents : List UInt8) → List UInt8 → Prop where
  | close : Quotes [] ['"'.toUInt8]
  | plain {byte : UInt8} {contents text : List UInt8} (hByte : IsPlain byte)
      (h : Quotes contents text) : Quotes (byte :: contents) (byte :: text)
  | simple {letter c : Char} {contents text : List UInt8} (hEscape : (letter, c) ∈ simpleEscapes)
      (h : Quotes contents text) :
      Quotes (String.utf8EncodeChar c ++ contents) ('\\'.toUInt8 :: letter.toUInt8 :: text)
  | codeUnit {unit : Nat} {digits contents text : List UInt8} (hUnit : CodeUnit unit digits)
      (hRange : unit < 0xD800 ∨ 0xDFFF < unit) (h : Quotes contents text) :
      Quotes (String.utf8EncodeChar (Char.ofNat unit) ++ contents)
        ('\\'.toUInt8 :: 'u'.toUInt8 :: (digits ++ text))
  | pair {leading trailing : Nat} {digits digits' contents text : List UInt8}
      (hUnit : CodeUnit leading digits) (hUnit' : CodeUnit trailing digits')
      (hLeading : 0xD800 ≤ leading ∧ leading ≤ 0xDBFF)
      (hTrailing : 0xDC00 ≤ trailing ∧ trailing ≤ 0xDFFF) (h : Quotes contents text) :
      Quotes (String.utf8EncodeChar
          (Char.ofNat (0x10000 + (leading - 0xD800) * 0x400 + (trailing - 0xDC00))) ++ contents)
        ('\\'.toUInt8 :: 'u'.toUInt8 :: (digits ++ '\\'.toUInt8 :: 'u'.toUInt8 :: (digits' ++ text)))

/-- A string of whatever contents, with its closing quote. -/
inductive QuotesAny : List UInt8 → Prop where
  | close : QuotesAny ['"'.toUInt8]
  | plain {byte : UInt8} {text : List UInt8} (hByte : IsPlain byte) (h : QuotesAny text) :
      QuotesAny (byte :: text)
  | simple {letter c : Char} {text : List UInt8} (hEscape : (letter, c) ∈ simpleEscapes)
      (h : QuotesAny text) : QuotesAny ('\\'.toUInt8 :: letter.toUInt8 :: text)
  | codeUnit {unit : Nat} {digits text : List UInt8} (hUnit : CodeUnit unit digits)
      (h : QuotesAny text) : QuotesAny ('\\'.toUInt8 :: 'u'.toUInt8 :: (digits ++ text))

end Text

section Number

/-- One or more decimal digits. -/
def Digits (text : List UInt8) : Prop :=
  text ≠ [] ∧ ∀ byte ∈ text, '0'.toUInt8 ≤ byte ∧ byte ≤ '9'.toUInt8

/-- The integer part of a number, which has no leading zeros. -/
inductive IntegerPart : List UInt8 → Prop where
  | zero : IntegerPart ['0'.toUInt8]
  | digits {text : List UInt8} (hDigits : Digits text) (hHead : text.head? ≠ some '0'.toUInt8) :
      IntegerPart text

inductive FractionPart : List UInt8 → Prop where
  | absent : FractionPart []
  | digits {text : List UInt8} (hDigits : Digits text) : FractionPart ('.'.toUInt8 :: text)

inductive ExponentPart : List UInt8 → Prop where
  | absent : ExponentPart []
  | digits {letter : Char} {sign text : List UInt8} (hLetter : letter = 'e' ∨ letter = 'E')
      (hSign : sign = [] ∨ sign = ['+'.toUInt8] ∨ sign = ['-'.toUInt8]) (hDigits : Digits text) :
      ExponentPart (letter.toUInt8 :: (sign ++ text))

/-- A number without its sign. -/
inductive Unsigned : List UInt8 → Prop where
  | mk {integer fraction exponent : List UInt8} (hInteger : IntegerPart integer)
      (hFraction : FractionPart fraction) (hExponent : ExponentPart exponent) :
      Unsigned (integer ++ (fraction ++ exponent))

end Number

section Nesting

/-- What other values are enclosed in. -/
inductive Enclosing where
  | list
  | record
  deriving DecidableEq, Repr

/-- The character that starts a list or record. -/
def Enclosing.opening : Enclosing → Char
  | list => '['
  | record => '\x7b'

/-- The character that ends a list or record. -/
def Enclosing.closing : Enclosing → Char
  | list => ']'
  | record => '\x7d'

/-- What comes before an item: a comma, unless it is the first one. -/
inductive Separator : (first : Bool) → List UInt8 → Prop where
  | first : Separator true []
  | comma {mark : List UInt8} (hMark : Mark ',' mark) : Separator false mark

/-- Items from one on up to the end of what encloses them. -/
inductive Items {α : Type} (Item : α → List UInt8 → Prop) (enclosing : Enclosing) :
    (first : Bool) → List α → List UInt8 → Prop where
  | close {first : Bool} {mark : List UInt8} (hMark : Mark enclosing.closing mark) :
      Items Item enclosing first [] mark
  | item {first : Bool} {a : α} {as : List α} {separator before text rest : List UInt8}
      (hSeparator : Separator first separator) (hBefore : Blank before) (hItem : Item a text)
      (hRest : Items Item enclosing false as rest) :
      Items Item enclosing first (a :: as) (separator ++ (before ++ (text ++ rest)))

/-- The name of a member after its opening quote. One that is not asked for may stand for nothing. -/
inductive NameText : (name : Option String) → List UInt8 → Prop where
  | known {name : String} {text : List UInt8} (hText : Quotes (bytesOf name) text) :
      NameText (some name) text
  | any {text : List UInt8} (hText : QuotesAny text) : NameText none text

/-- A member of a record: its name, a colon and its value. -/
inductive MemberText (Text : Value → List UInt8 → Prop) :
    Option String × Value → List UInt8 → Prop where
  | mk {name : Option String} {value : Value} {key colon before text : List UInt8}
      (hKey : NameText name key) (hColon : Mark ':' colon) (hBefore : Blank before)
      (hText : Text value text) :
      MemberText Text (name, value) ('"'.toUInt8 :: (key ++ (colon ++ (before ++ text))))

/-- The texts of a value, nested to any depth. A natural number has one. -/
inductive Spells : Value → List UInt8 → Prop where
  | null : Spells .null (bytesOf "null")
  | number (n : Nat) : Spells (.number n) (bytesOf (toString n))
  | list {items : List Value} {text : List UInt8} (hItems : Items Spells .list true items text) :
      Spells (.list items) (Enclosing.list.opening.toUInt8 :: text)
  | record {members : List (Option String × Value)} {text : List UInt8}
      (hMembers : Items (MemberText Spells) .record true members text) :
      Spells (.record members) (Enclosing.record.opening.toUInt8 :: text)
  | word {word : String} (hWord : word ∈ ["true", "false"]) : Spells .other (bytesOf word)
  | unsigned {text : List UInt8} (hText : Unsigned text)
      (hOther : ∀ n : Nat, text ≠ bytesOf (toString n)) : Spells .other text
  | signed {text : List UInt8} (hText : Unsigned text) : Spells .other ('-'.toUInt8 :: text)
  | text {text : List UInt8} (hText : QuotesAny text) : Spells .other ('"'.toUInt8 :: text)

end Nesting

/-- The text of a whole document: a value, and blanks around it. -/
inductive SpellsDocument (value : Value) : List UInt8 → Prop where
  | mk {before text after : List UInt8} (hBefore : Blank before) (hText : Spells value text)
      (hAfter : Blank after) : SpellsDocument value (before ++ (text ++ after))

/-- A document: the value it holds, and its text. -/
structure Spelling where
  value : Value
  text : List UInt8
  spells : SpellsDocument value text

end StreamSplice.Document
