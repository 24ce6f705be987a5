import Mathlib.Data.List.DropRight
import Rphp.Lib.Bytes
import Rphp.Lib.Decimal
import Rphp.Lib.Utf8
import Rphp.Value.Array.Refinement

namespace Rphp.Codec.Pack
open Rphp.Lib
set_option autoImplicit true

/-- A result with the warnings that were raised on the way. -/
structure Outcome (α : Type u) where
  value : Except String α
  warnings : List String

namespace Outcome

def success (value : α) (warnings : List String) : Outcome α := ⟨.ok value, warnings⟩

def failure (message : String) (warnings : List String) : Outcome α := ⟨.error message, warnings⟩

end Outcome

inductive Repeat
  | count (n : Nat)
  | star
  deriving DecidableEq, Repr

namespace Repeat

def countOr : Repeat → Nat → Nat
  | .count n, _ => n
  | .star, available => available

def isRepeated : Repeat → Bool
  | .count 1 => false
  | _ => true

end Repeat

section Counts

def saturatingMul (a b : Nat) : Nat := min (a * b) usizeMax

/-- A decimal count, saturating at the width of the machine. -/
def saturatingDigits (digits : List UInt8) : Nat :=
  digits.foldl (fun value digit => saturatingAdd (saturatingMul value 10) (digit.toNat - 48)) 0

/-- The repeat count at the front of a format, and how many bytes it takes. -/
def parseRepeat (format : List UInt8) : Repeat × Nat :=
  if format.head? = some 42 then (.star, 1)
  else
    let digits := format.takeWhile isDigit
    if digits.length = 0 then (.count 1, 0) else (.count (saturatingDigits digits), digits.length)

end Counts

/-- What the two functions use of the values of the machine: the conversions of an argument
that is not an integer, and the values that strings and floats become. -/
structure Conversions (P : Type u) where
  isArray : Value P → Bool
  valueBytes : Value P → List UInt8
  long : Value P → I64
  longWarning : Value P → Option String
  floatBytes : Char → Value P → List UInt8
  floatWarning : Value P → Option String
  binaryString : List UInt8 → P
  readFloat : Char → List UInt8 → P

namespace Conversions

def explicitLongConversion (C : Conversions P) : Value P → I64
  | .long n => n
  | value => C.long value

def explicitNumericCastWarning (C : Conversions P) : Value P → Option String
  | .long _ => none
  | value => C.longWarning value

end Conversions

def codeText (code : Char) : String := String.singleton code

section Packing

/-- The low bits of an integer. -/
def castBits (bits : Nat) (n : I64) : Nat := (n.val % 2 ^ bits).toNat

variable (native : ByteOrder)

def pushInteger (code : Char) (n : I64) : List UInt8 :=
  match code with
  | 'c' | 'C' => toBytes .little 1 (castBits 8 n)
  | 's' | 'S' => toBytes native 2 (castBits 16 n)
  | 'n' => toBytes .big 2 (castBits 16 n)
  | 'v' => toBytes .little 2 (castBits 16 n)
  | 'i' | 'I' | 'l' | 'L' => toBytes native 4 (castBits 32 n)
  | 'N' => toBytes .big 4 (castBits 32 n)
  | 'V' => toBytes .little 4 (castBits 32 n)
  | 'q' | 'Q' => toBytes native 8 (castBits 64 n)
  | 'J' => toBytes .big 8 (castBits 64 n)
  | 'P' => toBytes .little 8 (castBits 64 n)
  | _ => []

def hexNibble (digit : UInt8) : Option UInt8 :=
  if 48 ≤ digit ∧ digit ≤ 57 then some (digit - 48)
  else if 97 ≤ digit ∧ digit ≤ 102 then some (digit - 97 + 10)
  else if 65 ≤ digit ∧ digit ≤ 70 then some (digit - 65 + 10)
  else none

/-- The bytes of hexadecimal digits, two to a byte; an odd last digit stands alone. -/
def hexBytes (code : Char) : List UInt8 → List UInt8
  | [] => []
  | [digit] =>
    [if code = 'H' then (hexNibble digit).getD 0 <<< 4 else (hexNibble digit).getD 0]
  | first :: second :: rest =>
    let first := (hexNibble first).getD 0
    let second := (hexNibble second).getD 0
    (if code = 'H' then first <<< 4 ||| second else first ||| second <<< 4) :: hexBytes code rest

def illegalDigit (code : Char) (digit : UInt8) : Option String :=
  if (hexNibble digit).isNone then
    some ("pack(): Type " ++ codeText code ++ ": illegal hex digit " ++
      codeText (Char.ofNat digit.toNat))
  else none

/-- The bytes of a hexadecimal argument, with the warnings it raises. -/
def pushHex (code : Char) (input : List UInt8) (r : Repeat) : List UInt8 × List String :=
  let requested := r.countOr input.length
  let digits := input.take requested
  let short := if input.length < requested then
    ["pack(): Type " ++ codeText code ++ ": not enough characters in string"] else []
  (hexBytes code digits, short ++ digits.filterMap (illegalDigit code))

def padTo (count : Nat) (fill : UInt8) (bytes : List UInt8) : List UInt8 :=
  bytes.take count ++ List.replicate (count - bytes.length) fill

structure PackState (P : Type u) where
  arguments : List (Value P)
  output : List UInt8
  warnings : List String

variable (C : Conversions P)

def tooFewArguments (code : Char) : String := "Type " ++ codeText code ++ ": too few arguments"

/-- The string codes take one argument. -/
def packString (code : Char) (r : Repeat) (s : PackState P) : Except String (PackState P) :=
  match s.arguments with
  | [] => .error (tooFewArguments code)
  | value :: arguments =>
    let warnings := s.warnings ++ if C.isArray value then ["Array to string conversion"] else []
    let input := C.valueBytes value
    match code with
    | 'h' | 'H' =>
      let (bytes, raised) := pushHex code input r
      .ok ⟨arguments, s.output ++ bytes, warnings ++ raised⟩
    | 'Z' =>
      let count := r.countOr (saturatingAdd input.length 1)
      let bytes := if count = 0 then [] else padTo count 0 (input.take (count - 1))
      .ok ⟨arguments, s.output ++ bytes, warnings⟩
    | _ =>
      let count := r.countOr input.length
      .ok ⟨arguments, s.output ++ padTo count (if code = 'A' then 32 else 0) input, warnings⟩

/-- The number codes take as many arguments as their count. -/
def packNumbers (code : Char) (r : Repeat) (bytes : Value P → List UInt8)
    (warning : Value P → Option String) (s : PackState P) : Except String (PackState P) :=
  let count := r.countOr s.arguments.length
  if s.arguments.length < count then .error (tooFewArguments code)
  else
    let taken := s.arguments.take count
    .ok ⟨s.arguments.drop count, s.output ++ taken.flatMap bytes,
      s.warnings ++ taken.filterMap warning⟩

/-- The cursor codes take no argument and ignore a star. -/
def packCursor (code : Char) (r : Repeat) (s : PackState P) : PackState P :=
  let ignored := match r with
    | .star => ["pack(): Type " ++ codeText code ++ ": '*' ignored"]
    | .count _ => []
  let count := r.countOr 1
  match code with
  | 'x' => ⟨s.arguments, s.output ++ List.replicate count 0, s.warnings ++ ignored⟩
  | 'X' =>
    let outside := if s.output.length < count then ["pack(): Type X: outside of string"] else []
    ⟨s.arguments, s.output.take (s.output.length - count), s.warnings ++ ignored ++ outside⟩
  | _ => ⟨s.arguments, padTo count 0 s.output, s.warnings ++ ignored⟩

/-- One code of a format with its repeat count. -/
def packItem (s : PackState P) (item : Char × Repeat) : Except String (PackState P) :=
  let (code, r) := item
  match code with
  | 'a' | 'A' | 'Z' | 'h' | 'H' => packString C code r s
  | 'c' | 'C' | 's' | 'S' | 'n' | 'v' | 'i' | 'I' | 'l' | 'L' | 'N' | 'V' | 'q' | 'Q' | 'J'
  | 'P' =>
    packNumbers code r (fun value => pushInteger native code (C.explicitLongConversion value))
      C.explicitNumericCastWarning s
  | 'f' | 'g' | 'G' | 'd' | 'e' | 'E' => packNumbers code r (C.floatBytes code) C.floatWarning s
  | 'x' | 'X' | '@' => .ok (packCursor code r s)
  | _ => .error ("Type " ++ codeText code ++ ": unknown format code")

/-- The codes of a format with their repeat counts; the bound is the number of its bytes. -/
def formatItemsWithin : Nat → List UInt8 → List (Char × Repeat)
  | _, [] => []
  | 0, _ :: _ => []
  | bound + 1, code :: rest =>
    let (r, consumed) := parseRepeat rest
    (Char.ofNat code.toNat, r) :: formatItemsWithin bound (rest.drop consumed)

def formatItems (format : List UInt8) : List (Char × Repeat) :=
  formatItemsWithin format.length format

def packItems : List (Char × Repeat) → PackState P → Outcome (List UInt8)
  | [], s =>
    let unused := s.arguments.length
    .success s.output (s.warnings ++
      if unused = 0 then [] else ["pack(): " ++ toString unused ++ " arguments unused"])
  | item :: items, s =>
    match packItem native C s item with
    | .ok s => packItems items s
    | .error message => .failure message s.warnings

def packValues (format : List Char) (arguments : List (Value P)) : Outcome (List UInt8) :=
  packItems native C (formatItems (utf8 format)) ⟨arguments, [], []⟩

end Packing

section Widths

def integerWidth (code : Char) : Option Nat :=
  match code with
  | 'c' | 'C' => some 1
  | 's' | 'S' | 'n' | 'v' => some 2
  | 'i' | 'I' | 'l' | 'L' | 'N' | 'V' => some 4
  | 'q' | 'Q' | 'J' | 'P' => some 8
  | _ => none

def floatWidth (code : Char) : Option Nat :=
  match code with
  | 'f' | 'g' | 'G' => some 4
  | 'd' | 'e' | 'E' => some 8
  | _ => none

end Widths

section Reading

/-- The bytes as an array of the given width, which is refused for any other length. -/
def exactly (width : Nat) (bytes : List UInt8) : Option (List UInt8) :=
  if bytes.length = width then some bytes else none

/-- An integer of some width, as a signed number. -/
def asSigned (width n : Nat) : Int := (n : Int).bmod (256 ^ width : Nat)

variable (native : ByteOrder)

def readSigned (order : ByteOrder) (width : Nat) (bytes : List UInt8) : Option I64 :=
  (exactly width bytes).map fun bytes => I64.wrap (asSigned width (ofBytes order bytes))

def readUnsigned (order : ByteOrder) (width : Nat) (bytes : List UInt8) : Option I64 :=
  (exactly width bytes).map fun bytes => I64.wrap (ofBytes order bytes)

def readInteger (code : Char) (bytes : List UInt8) : Option I64 :=
  match code with
  | 'c' => (bytes.head?).bind fun byte => readSigned native 1 [byte]
  | 'C' => (bytes.head?).bind fun byte => readUnsigned native 1 [byte]
  | 's' => readSigned native 2 bytes
  | 'S' => readUnsigned native 2 bytes
  | 'n' => readUnsigned .big 2 bytes
  | 'v' => readUnsigned .little 2 bytes
  | 'i' | 'l' => readSigned native 4 bytes
  | 'I' | 'L' => readUnsigned native 4 bytes
  | 'N' => readUnsigned .big 4 bytes
  | 'V' => readUnsigned .little 4 bytes
  | 'q' => readSigned native 8 bytes
  | 'Q' => readUnsigned native 8 bytes
  | 'J' => readUnsigned .big 8 bytes
  | 'P' => readUnsigned .little 8 bytes
  | _ => none

end Reading

section Results

/-- The key of a value: its index, the name, or the name with the index. -/
def resultKey (name : List Char) (repeated : Bool) (index : Nat) : ArrayKey :=
  if name.isEmpty then .int (I64.wrap index)
  else if repeated then .string (String.ofList name ++ toString index)
  else .string (String.ofList name)

def insertResult (result : PhpArray P) (name : List Char) (repeated : Bool) (index : Nat)
    (value : Value P) : PhpArray P :=
  match resultKey name repeated index with
  | .int key => result.setInt key value
  | .string key => result.setStr key value

def insufficient (code : Char) (need available : Nat) : String :=
  "unpack(): Type " ++ codeText code ++ ": not enough input values, need " ++ toString need ++
    " values but only " ++ toString available ++ (if available = 1 then " was" else " were") ++
    " provided"

end Results

def i32Max : Nat := 2147483647

/-- An addition that overflows is a panic. -/
def addUsize (a b : Nat) : Option Nat := if a + b ≤ usizeMax then some (a + b) else none

structure UnpackState (P : Type u) where
  result : PhpArray P
  position : Nat
  warnings : List String

/-- How a segment ends: with the state for the next one, or with the outcome of the call. -/
inductive Flow (P : Type u)
  | next (s : UnpackState P)
  | done (outcome : Outcome (Option (PhpArray P)))

namespace UnpackState

/-- The call ends without a result and with one more warning. -/
def giveUp (s : UnpackState P) (warning : String) : Flow P :=
  .done (.success none (s.warnings ++ [warning]))

end UnpackState

section Unpacking

variable (native : ByteOrder) (C : Conversions P) (data : List UInt8) (offset : Nat)

def readValue (code : Char) (bytes : List UInt8) : Option (Value P) :=
  if (integerWidth code).isSome then (readInteger native code bytes).map Value.long
  else some (.other (C.readFloat code bytes))

/-- The loop over the values of one code, with the number of values that are left. -/
def unpackNumbers (code : Char) (width : Nat) (name : List Char) (repeated : Bool) :
    Nat → Nat → UnpackState P → Option (Flow P)
  | 0, _, s => some (.next s)
  | count + 1, index, s =>
    let available := data.length - s.position
    if available < width then some (s.giveUp (insufficient code width available))
    else do
      let stop ← addUsize s.position width
      let bytes ← slice data s.position stop
      let value ← readValue native C code bytes
      unpackNumbers code width name repeated count (index + 1)
        { s with result := insertResult s.result name repeated index value, position := stop }

def isPadding (byte : UInt8) : Bool :=
  byte = 0 || byte = 32 || byte = 9 || byte = 13 || byte = 10

def hexDigit (nibble : UInt8) : UInt8 := if nibble < 10 then nibble + 48 else nibble + 87

def hexPair (code : Char) (byte : UInt8) : List UInt8 :=
  if code = 'H' then [hexDigit (byte >>> 4), hexDigit (byte &&& 15)]
  else [hexDigit (byte &&& 15), hexDigit (byte >>> 4)]

/-- The string of a string code. -/
def stringBytes (code : Char) (requested : Nat) (bytes : List UInt8) : List UInt8 :=
  match code with
  | 'a' => bytes
  | 'A' => bytes.rdropWhile isPadding
  | 'Z' => bytes.takeWhile fun byte => byte ≠ 0
  | _ => (bytes.flatMap (hexPair code)).take requested

def isHexCode (code : Char) : Bool := code = 'h' || code = 'H'

def requestedBy (code : Char) (r : Repeat) (available : Nat) : Nat :=
  match r with
  | .star => if isHexCode code then saturatingMul available 2 else available
  | .count n => n

def bytesNeeded (code : Char) (requested : Nat) : Nat :=
  if isHexCode code then saturatingAdd requested 1 / 2 else requested

def unpackString (code : Char) (r : Repeat) (name : List Char) (s : UnpackState P) :
    Option (Flow P) :=
  let available := data.length - s.position
  let requested := requestedBy code r available
  let needed := bytesNeeded code requested
  if available < needed then some (s.giveUp (insufficient code needed available))
  else do
    let stop ← addUsize s.position needed
    let bytes ← slice data s.position stop
    some (.next { s with
      result := insertResult s.result name false 1
        (.other (C.binaryString (stringBytes code requested bytes)))
      position := stop })

def ignoredStar (code : Char) (r : Repeat) : List String :=
  match r with
  | .star => ["unpack(): Type " ++ codeText code ++ ": '*' ignored"]
  | .count _ => []

/-- The codes that only move the position. -/
def unpackCursor (code : Char) (r : Repeat) (s : UnpackState P) : Option (Flow P) :=
  match code with
  | 'x' =>
    let available := data.length - s.position
    let count := r.countOr available
    if available < count then some (s.giveUp (insufficient 'x' 1 0))
    else do
      let position ← addUsize s.position count
      some (.next { s with position := position })
  | 'X' =>
    some (.next { s with
      position := max (s.position - r.countOr 1) offset
      warnings := s.warnings ++ ignoredStar code r })
  | '@' =>
    let target := max s.position (saturatingAdd offset (r.countOr 1))
    let warnings := s.warnings ++ ignoredStar code r
    if data.length < target then
      some (.next { s with
        position := data.length
        warnings := warnings ++ ["unpack(): Type @: outside of string"] })
    else some (.next { s with position := target, warnings := warnings })
  | _ => some (.done (.failure ("Invalid format type " ++ codeText code) s.warnings))

/-- Whether the count of a segment is too large for the format. -/
def countOverflows (raw : List UInt8) : Bool :=
  let consumed := (parseRepeat raw).2
  0 < consumed && raw.head? ≠ some 42 && i32Max < saturatingDigits (raw.take consumed)

def unpackCode (code : Char) (r : Repeat) (name : List Char) (s : UnpackState P) :
    Option (Flow P) :=
  match integerWidth code <|> floatWidth code with
  | some width =>
    unpackNumbers native C data code width name r.isRepeated
      (r.countOr ((data.length - s.position) / width)) 1 s
  | none =>
    match code with
    | 'a' | 'A' | 'Z' | 'h' | 'H' => unpackString C data code r name s
    | _ => unpackCursor data offset code r s

/-- One segment of the format; the name is cut out of the text at a byte offset. -/
def unpackSegment (s : UnpackState P) (segment : List Char) : Option (Flow P) :=
  match utf8 segment with
  | [] => some (.next s)
  | first :: raw =>
    let code := Char.ofNat first.toNat
    if countOverflows raw then
      some (s.giveUp ("unpack(): Type " ++ codeText code ++ ": integer overflow"))
    else do
      let name ← sliceFrom segment (1 + (parseRepeat raw).2)
      unpackCode native C data offset code (parseRepeat raw).1 name s

def unpackSegments : List (List Char) → UnpackState P → Option (Outcome (Option (PhpArray P)))
  | [], s => some (.success (some s.result) s.warnings)
  | segment :: segments, s =>
    match unpackSegment native C data offset s segment with
    | none => none
    | some (.done outcome) => some outcome
    | some (.next s) => unpackSegments segments s

def formatSegments (format : List Char) : List (List Char) := format.splitOn '/'

/-- The outcome of a call, or nothing when the call panics. -/
def unpackValues (format : List Char) : Option (Outcome (Option (PhpArray P))) :=
  unpackSegments native C data offset (formatSegments format) ⟨.new, offset, []⟩

end Unpacking

end Rphp.Codec.Pack
