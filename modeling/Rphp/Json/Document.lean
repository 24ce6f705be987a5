import Rphp.Json.Pieces

namespace Rphp.Json
open Rphp.Lib
set_option autoImplicit true

section Grammar

def isSpace (byte : UInt8) : Bool := byte = 32 || byte = 9 || byte = 10 || byte = 13

/-- White space, possibly none. -/
def IsSpace (bytes : List UInt8) : Prop := ∀ byte ∈ bytes, isSpace byte = true

inductive IsInteger : List UInt8 → Prop
  | zero : IsInteger [48]
  | digits (first : UInt8) (rest : List UInt8) (hfirst : 49 ≤ first ∧ first ≤ 57)
      (hrest : ∀ byte ∈ rest, isDigit byte = true) : IsInteger (first :: rest)

inductive IsFraction : List UInt8 → Prop
  | none : IsFraction []
  | digits (first : UInt8) (rest : List UInt8) (hfirst : isDigit first = true)
      (hrest : ∀ byte ∈ rest, isDigit byte = true) : IsFraction (46 :: first :: rest)

inductive IsExponent : List UInt8 → Prop
  | none : IsExponent []
  | digits (letter : UInt8) (sign : List UInt8) (first : UInt8) (rest : List UInt8)
      (hletter : letter = 101 ∨ letter = 69) (hsign : sign = [] ∨ sign = [43] ∨ sign = [45])
      (hfirst : isDigit first = true) (hrest : ∀ byte ∈ rest, isDigit byte = true) :
      IsExponent (letter :: (sign ++ first :: rest))

/-- The numbers of the grammar. -/
inductive IsNumber : List UInt8 → Prop
  | parts (sign integer fraction exponent : List UInt8) (hsign : sign = [] ∨ sign = [45])
      (hinteger : IsInteger integer) (hfraction : IsFraction fraction)
      (hexponent : IsExponent exponent) : IsNumber (sign ++ integer ++ fraction ++ exponent)

def isHexDigit (byte : UInt8) : Bool :=
  48 ≤ byte && byte ≤ 57 || 97 ≤ byte && byte ≤ 102 || 65 ≤ byte && byte ≤ 70

/-- The bytes that stand for a character behind a backslash. -/
def isEscape (byte : UInt8) : Bool :=
  [34, 92, 47, 98, 102, 110, 114, 116].contains byte

/-- What may stand between the quotes of a string. -/
inductive IsStringBody : List UInt8 → Prop
  | nil : IsStringBody []
  | byte (b : UInt8) (rest : List UInt8) (hb : 32 ≤ b) (hquote : b ≠ 34) (hbackslash : b ≠ 92)
      (hrest : IsStringBody rest) : IsStringBody (b :: rest)
  | escape (b : UInt8) (rest : List UInt8) (hb : isEscape b = true)
      (hrest : IsStringBody rest) : IsStringBody (92 :: b :: rest)
  | unicode (digits rest : List UInt8) (hlength : digits.length = 4)
      (hdigits : ∀ b ∈ digits, isHexDigit b = true) (hrest : IsStringBody rest) :
      IsStringBody (92 :: 117 :: (digits ++ rest))

mutual

/-- A value with all the text that it was written with. -/
inductive JsonValue
  | null
  | bool (b : Bool)
  | number (lexeme : List UInt8)
  | string (body : List UInt8)
  | emptyArray (space : List UInt8)
  | array (elements : JsonElements)
  | emptyObject (space : List UInt8)
  | object (members : JsonMembers)

inductive JsonElements
  | last (before : List UInt8) (value : JsonValue) (after : List UInt8)
  | cons (before : List UInt8) (value : JsonValue) (after : List UInt8) (rest : JsonElements)

inductive JsonMembers
  | last (beforeKey key afterKey before : List UInt8) (value : JsonValue) (after : List UInt8)
  | cons (beforeKey key afterKey before : List UInt8) (value : JsonValue) (after : List UInt8)
      (rest : JsonMembers)

end

def quoted (body : List UInt8) : List UInt8 := 34 :: (body ++ [34])

def literalBytes : Bool → List UInt8
  | true => [116, 114, 117, 101]
  | false => [102, 97, 108, 115, 101]

/-- The text in front of the value of a member. -/
def memberHead (beforeKey key afterKey before : List UInt8) : List UInt8 :=
  beforeKey ++ quoted key ++ afterKey ++ [58] ++ before

mutual

def JsonValue.pieces : JsonValue → List Piece
  | .null => [110, 117, 108, 108].map .byte
  | .bool b => (literalBytes b).map .byte
  | .number lexeme => [.number lexeme]
  | .string body => (quoted body).map .byte
  | .emptyArray space => (91 :: (space ++ [93])).map .byte
  | .array elements => .byte 91 :: (elements.pieces ++ [.byte 93])
  | .emptyObject space => (123 :: (space ++ [125])).map .byte
  | .object members => .byte 123 :: (members.pieces ++ [.byte 125])

def JsonElements.pieces : JsonElements → List Piece
  | .last before value after => before.map .byte ++ value.pieces ++ after.map .byte
  | .cons before value after rest =>
    before.map .byte ++ value.pieces ++ after.map .byte ++ .byte 44 :: rest.pieces

def JsonMembers.pieces : JsonMembers → List Piece
  | .last beforeKey key afterKey before value after =>
    (memberHead beforeKey key afterKey before).map .byte ++ value.pieces ++ after.map .byte
  | .cons beforeKey key afterKey before value after rest =>
    (memberHead beforeKey key afterKey before).map .byte ++ value.pieces ++ after.map .byte ++
      .byte 44 :: rest.pieces

end

mutual

/-- The conditions of the grammar on the text of a value. -/
def JsonValue.WellFormed : JsonValue → Prop
  | .null => True
  | .bool _ => True
  | .number lexeme => IsNumber lexeme
  | .string body => IsStringBody body
  | .emptyArray space => IsSpace space
  | .array elements => elements.WellFormed
  | .emptyObject space => IsSpace space
  | .object members => members.WellFormed

def JsonElements.WellFormed : JsonElements → Prop
  | .last before value after => IsSpace before ∧ value.WellFormed ∧ IsSpace after
  | .cons before value after rest =>
    IsSpace before ∧ value.WellFormed ∧ IsSpace after ∧ rest.WellFormed

def JsonMembers.WellFormed : JsonMembers → Prop
  | .last beforeKey key afterKey before value after =>
    (IsSpace beforeKey ∧ IsStringBody key ∧ IsSpace afterKey ∧ IsSpace before) ∧
      value.WellFormed ∧ IsSpace after
  | .cons beforeKey key afterKey before value after rest =>
    (IsSpace beforeKey ∧ IsStringBody key ∧ IsSpace afterKey ∧ IsSpace before) ∧
      value.WellFormed ∧ IsSpace after ∧ rest.WellFormed

end

/-- A document: a value between white space. -/
structure JsonDocument where
  before : List UInt8
  value : JsonValue
  after : List UInt8

namespace JsonDocument

def pieces (d : JsonDocument) : List Piece :=
  d.before.map .byte ++ d.value.pieces ++ d.after.map .byte

def render (d : JsonDocument) : List UInt8 := text d.pieces

def WellFormed (d : JsonDocument) : Prop :=
  IsSpace d.before ∧ d.value.WellFormed ∧ IsSpace d.after

end JsonDocument

/-- A text of the JSON grammar. -/
def IsJson (input : List UInt8) : Prop := ∃ d : JsonDocument, d.WellFormed ∧ d.render = input

end Grammar

inductive DecodeError
  | depth
  | parserStack
  | invalidProperty
  | numberPlan
  deriving DecidableEq, Repr

def u32Max : Nat := 4294967295

/-- How values are put together: arrays from the values pushed into them, objects from the
members set in them, both with the depth of their container. -/
structure Builder (V : Type u) where
  null : V
  bool : Bool → V
  number : PhpNumber → V
  string : List UInt8 → V
  array : Nat → List V → V
  associativeArray : Nat → List (List UInt8 × V) → V
  object : Nat → List (List UInt8 × V) → V

structure PhpValueSeed where
  associative : Bool
  maximumDepth : Nat
  containerDepth : Nat
  parserStackCost : Nat

namespace PhpValueSeed

def new (associative : Bool) (maximumDepth : Nat) : PhpValueSeed := ⟨associative, maximumDepth, 0, 0⟩

def enterContainer (s : PhpValueSeed) (parserCost : Nat) : Except DecodeError PhpValueSeed :=
  let containerDepth := min (s.containerDepth + 1) u32Max
  let parserStackCost := min (s.parserStackCost + parserCost) u32Max
  if s.maximumDepth ≤ containerDepth then .error .depth
  else if 4998 < parserStackCost then .error .parserStack
  else .ok { s with containerDepth := containerDepth, parserStackCost := parserStackCost }

end PhpValueSeed

/-- How the visitor takes a number; the state is the cursor of the plan. -/
abbrev NumberVisitor := List UInt8 → Nat → Except DecodeError (PhpNumber × Nat)

/-- The next value of a plan, whatever the number in the text is. -/
def planned (values : List PhpNumber) : NumberVisitor := fun _ cursor =>
  match values[cursor]? with
  | some value => .ok (value, cursor + 1)
  | none => .error .numberPlan

/-- Each number by its own lexeme. -/
def projected (bigintAsString : Bool) : NumberVisitor := fun lexeme cursor =>
  .ok (phpNumberFromLexeme lexeme bigintAsString, cursor)

/-- A property name must not start with a zero byte. -/
def checkProperty (associative : Bool) (name : List UInt8) : Except DecodeError Unit :=
  if !associative && name.head? = some 0 then .error .invalidProperty else .ok ()

section Visitor

variable (build : Builder V) (unescape : List UInt8 → List UInt8) (visit : NumberVisitor)

def objectOf (seed : PhpValueSeed) (members : List (List UInt8 × V)) : V :=
  if seed.associative then build.associativeArray seed.containerDepth members
  else build.object seed.containerDepth members

mutual

/-- The visitor over a value that the parser reads, with the cursor of the plan. -/
def decodeValue (seed : PhpValueSeed) : JsonValue → Nat → Except DecodeError (V × Nat)
  | .null, cursor => .ok (build.null, cursor)
  | .bool b, cursor => .ok (build.bool b, cursor)
  | .number lexeme, cursor => do
    let (number, cursor) ← visit lexeme cursor
    .ok (build.number number, cursor)
  | .string body, cursor => .ok (build.string (unescape body), cursor)
  | .emptyArray _, cursor => do
    let child ← seed.enterContainer 1
    .ok (build.array child.containerDepth [], cursor)
  | .array elements, cursor => do
    let child ← seed.enterContainer 1
    let (values, cursor) ← decodeElements child elements cursor
    .ok (build.array child.containerDepth values, cursor)
  | .emptyObject _, cursor => do
    let child ← seed.enterContainer 2
    .ok (objectOf build child [], cursor)
  | .object members, cursor => do
    let child ← seed.enterContainer 2
    let (members, cursor) ← decodeMembers child members cursor
    .ok (objectOf build child members, cursor)

def decodeElements (seed : PhpValueSeed) : JsonElements → Nat → Except DecodeError (List V × Nat)
  | .last _ value _, cursor => do
    let (value, cursor) ← decodeValue seed value cursor
    .ok ([value], cursor)
  | .cons _ value _ rest, cursor => do
    let (value, cursor) ← decodeValue seed value cursor
    let (values, cursor) ← decodeElements seed rest cursor
    .ok (value :: values, cursor)

def decodeMembers (seed : PhpValueSeed) :
    JsonMembers → Nat → Except DecodeError (List (List UInt8 × V) × Nat)
  | .last _ key _ _ value _, cursor => do
    let (value, cursor) ← decodeValue seed value cursor
    checkProperty seed.associative (unescape key)
    .ok ([(unescape key, value)], cursor)
  | .cons _ key _ _ value _ rest, cursor => do
    let (value, cursor) ← decodeValue seed value cursor
    checkProperty seed.associative (unescape key)
    let (members, cursor) ← decodeMembers seed rest cursor
    .ok ((unescape key, value) :: members, cursor)

end

/-- The value of a document, with the cursor where the decoder leaves it. -/
def decodeDocument (associative : Bool) (maximumDepth : Nat) (d : JsonDocument) :
    Except DecodeError (V × Nat) :=
  decodeValue build unescape visit (.new associative maximumDepth) d.value 0

end Visitor

section Zeroed

mutual

/-- The value with a zero for every number. -/
def JsonValue.zeroed : JsonValue → JsonValue
  | .number _ => .number [48]
  | .array elements => .array elements.zeroed
  | .object members => .object members.zeroed
  | value => value

def JsonElements.zeroed : JsonElements → JsonElements
  | .last before value after => .last before value.zeroed after
  | .cons before value after rest => .cons before value.zeroed after rest.zeroed

def JsonMembers.zeroed : JsonMembers → JsonMembers
  | .last beforeKey key afterKey before value after =>
    .last beforeKey key afterKey before value.zeroed after
  | .cons beforeKey key afterKey before value after rest =>
    .cons beforeKey key afterKey before value.zeroed after rest.zeroed

end

def JsonDocument.zeroed (d : JsonDocument) : JsonDocument := { d with value := d.value.zeroed }

end Zeroed

end Rphp.Json
