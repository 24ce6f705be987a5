import Mathlib.Data.List.Basic

set_option autoImplicit true

namespace Rphp.Regex

/-- The byte classes of the platform's character type interface. -/
inductive CtypeClass
  | alnum | alpha | blank | control | digit | graph | lower | print | punctuation | space
  | upper | hexDigit
  deriving DecidableEq, Repr

/-- What the generated Unicode tables, the standard library's character predicates and the
locale's byte classes answer. -/
structure CharTables where
  simpleCaseFold : Char → Char
  generalCategory : Char → Char × Char
  propertyMatches : Nat → Char → Bool
  isAlphanumeric : Char → Bool
  isWhitespace : Char → Bool
  joinsGrapheme : List Char → Nat → Nat → Bool
  scriptRunIsValid : List Char → Bool
  ctypeByteMatches : CtypeClass → Nat → Bool
  ctypeLowercaseByte : Nat → Nat

inductive NewlineConvention
  | lf | cr | crLf | anyCrLf | any | nul
  deriving DecidableEq, Repr

structure LineOptions where
  dollarEndOnly : Bool
  bsrAnycrlf : Bool
  newline : NewlineConvention
  deriving DecidableEq, Repr

structure UnicodeMode where
  utf : Bool
  ucp : Bool
  deriving DecidableEq, Repr

structure RegexFlags where
  caseInsensitive : Bool
  multiline : Bool
  dotall : Bool
  lineOptions : LineOptions
  unicodeMode : UnicodeMode
  anchored : Bool
  deriving DecidableEq, Repr

def RegexFlags.default : RegexFlags where
  caseInsensitive := false
  multiline := false
  dotall := false
  lineOptions := ⟨false, false, .lf⟩
  unicodeMode := ⟨false, false⟩
  anchored := false

structure LocalMatchFlags where
  caseInsensitive : Bool
  multiline : Bool
  dotall : Bool
  deriving DecidableEq, Repr

def RegexFlags.withLocal (flags : RegexFlags) (l : LocalMatchFlags) : RegexFlags :=
  { flags with
    caseInsensitive := l.caseInsensitive
    multiline := l.multiline
    dotall := l.dotall }

inductive Anchor
  | start | «end» | absoluteStart | absoluteEnd | finalEnd | searchStart
  deriving DecidableEq, Repr

inductive PosixClass
  | alnum | alpha | ascii | blank | cntrl | digit | graph | lower | print | punct | space
  | upper | word | xdigit
  deriving DecidableEq, Repr

/-- A resolved property name, by its place in the tables. -/
structure PropertyClass where
  selector : Nat
  negated : Bool
  deriving DecidableEq, Repr

inductive Shorthand
  | digit | nonDigit | word | nonWord | space | nonSpace | horizontalSpace
  | nonHorizontalSpace | verticalSpace | nonVerticalSpace
  | property (p : PropertyClass)
  deriving DecidableEq, Repr

inductive ClassItem
  | literal (c : Char)
  | range (lo hi : Char)
  | shorthand (s : Shorthand)
  | posix (p : PosixClass) (negated : Bool)
  deriving DecidableEq, Repr

abbrev GroupName := List Char

inductive SubroutineTarget
  | wholePattern
  | group (index : Nat)
  | name (n : GroupName)
  deriving DecidableEq, Repr

inductive ControlVerb
  | fail | accept | commit | prune | skip | «then»
  deriving DecidableEq, Repr

inductive MatchControl
  | accept | commit | prune
  | skip (position : Nat)
  | «then»
  deriving DecidableEq, Repr

/-- A captured span, in byte offsets of the subject. -/
structure Match where
  start : Nat
  «end» : Nat
  deriving DecidableEq, Repr

mutual

/-- The pattern tree; the last two constructors only occur in continuations. -/
inductive Node
  | literal (c : Char)
  | anyChar
  | byteUnit
  | notNewline
  | anchor (a : Anchor)
  | charClass (negated : Bool) (items : List ClassItem)
  | shorthand (s : Shorthand)
  | group (index : Option Nat) (inner : Node)
  | alternation (branches : List Node)
  | sequence (nodes : List Node)
  | quantifier (inner : Node) (min : Nat) (max : Option Nat) (greedy possessive : Bool)
  | backreference (n : Nat)
  | namedBackreference (n : GroupName)
  | lookahead (positive atomic : Bool) (inner : Node)
  | lookbehind (positive atomic : Bool) (inner : Node)
  | atomic (inner : Node)
  | scriptRun (inner : Node) (atomic : Bool)
  | mark (n : GroupName)
  | control (verb : ControlVerb) (n : Option GroupName)
  | resetStart
  | wordBoundary (positive : Bool)
  | graphemeCluster
  | linebreak
  | localFlags (flags : LocalMatchFlags) (inner : Node)
  | subroutine (target : SubroutineTarget)
  | conditional (condition : CaptureCondition) (yes : Node) (no : Option Node)
  | captureEnd (index start : Nat)
  | captureRestore (groups : List (Option Match))

inductive CaptureCondition
  | group (index : Nat)
  | name (n : GroupName)
  | recursionTarget (target : SubroutineTarget)
  | ambiguousRecursion (n : GroupName) (target : Option SubroutineTarget)
  | assertion (positive lookbehind : Bool) (inner : Node)
  | always (value : Bool)

end

instance : Inhabited Node := ⟨.anyChar⟩

section Characters

variable (T : CharTables)

def byteOf? (c : Char) : Option Nat :=
  if c.toNat < 256 then some c.toNat else none

def CharTables.ctypeChar (k : CtypeClass) (c : Char) : Bool :=
  match byteOf? c with
  | some b => T.ctypeByteMatches k b
  | none => false

def categoryIs (c : Char) (name : Char × Char) : Bool :=
  T.generalCategory c == name

def categoryHasInitial (c : Char) (initial : Char) : Bool :=
  (T.generalCategory c).1 == initial

def caselessEqual (left right : Char) : Bool :=
  left == right || T.simpleCaseFold left == T.simpleCaseFold right

def charsEqual (left right : Char) (flags : RegexFlags) : Bool :=
  if flags.caseInsensitive then
    if flags.unicodeMode.utf || flags.unicodeMode.ucp then
      caselessEqual T left right
    else
      match byteOf? left, byteOf? right with
      | some l, some r => T.ctypeLowercaseByte l == T.ctypeLowercaseByte r
      | _, _ => false
  else
    left == right

def isWordChar (c : Char) (unicode : Bool) : Bool :=
  if unicode then T.isAlphanumeric c || c == '_'
  else T.ctypeChar .alnum c || c == '_'

def isWordBoundary (chars : List Char) (pos : Nat) (unicode : Bool) : Bool :=
  let before := 0 < pos && chars[pos - 1]?.any (isWordChar T · unicode)
  let after := chars[pos]?.any (isWordChar T · unicode)
  before != after

def isHorizontalSpace (c : Char) : Bool :=
  [0x09, 0x20, 0xa0, 0x1680, 0x180e, 0x202f, 0x205f, 0x3000].contains c.toNat ||
    (0x2000 ≤ c.toNat && c.toNat ≤ 0x200a)

def isVerticalSpace (c : Char) : Bool :=
  [0x0a, 0x0b, 0x0c, 0x0d, 0x85, 0x2028, 0x2029].contains c.toNat

def matchShorthand (sh : Shorthand) (c : Char) (unicode : Bool) : Bool :=
  let digit := if unicode then c.isDigit else T.ctypeChar .digit c
  let space := if unicode then T.isWhitespace c else T.ctypeChar .space c
  match sh with
  | .digit => digit
  | .nonDigit => !digit
  | .word => isWordChar T c unicode
  | .nonWord => !isWordChar T c unicode
  | .space => space
  | .nonSpace => !space
  | .horizontalSpace => isHorizontalSpace c
  | .nonHorizontalSpace => !isHorizontalSpace c
  | .verticalSpace => isVerticalSpace c
  | .nonVerticalSpace => !isVerticalSpace c
  | .property p => T.propertyMatches p.selector c != p.negated

def isAscii (c : Char) : Bool :=
  c.toNat < 128

def isAsciiHexDigit (c : Char) : Bool :=
  c.isDigit || ('a' ≤ c && c ≤ 'f') || ('A' ≤ c && c ≤ 'F')

def PosixClass.matchesByte (p : PosixClass) (c : Char) : Bool :=
  match p with
  | .alnum => T.ctypeChar .alnum c
  | .alpha => T.ctypeChar .alpha c
  | .ascii => isAscii c
  | .blank => T.ctypeChar .blank c
  | .cntrl => T.ctypeChar .control c
  | .digit => T.ctypeChar .digit c
  | .graph => T.ctypeChar .graph c
  | .lower => T.ctypeChar .lower c
  | .print => T.ctypeChar .print c
  | .punct => T.ctypeChar .punctuation c
  | .space => T.ctypeChar .space c
  | .upper => T.ctypeChar .upper c
  | .word => T.ctypeChar .alnum c || c == '_'
  | .xdigit => T.ctypeChar .hexDigit c

def PosixClass.matchesUnicode (p : PosixClass) (c : Char) : Bool :=
  let isLetter := categoryHasInitial T c 'L'
  let isNumber := categoryHasInitial T c 'N'
  let isSpace := T.isWhitespace c
  let isBlank := c == '\t' || categoryIs T c ('Z', 's')
  let isControl := categoryIs T c ('C', 'c')
  match p with
  | .alnum => isLetter || isNumber
  | .alpha => isLetter
  | .ascii => isAscii c
  | .blank => isBlank
  | .cntrl => isControl
  | .digit => categoryIs T c ('N', 'd')
  | .graph => !isSpace && !isControl
  | .lower => categoryIs T c ('L', 'l')
  | .print => (!isSpace && !isControl) || isBlank
  | .punct => categoryHasInitial T c 'P'
  | .space => isSpace
  | .upper => categoryIs T c ('L', 'u')
  | .word => isLetter || isNumber || c == '_'
  | .xdigit => isAsciiHexDigit c

def PosixClass.matches (p : PosixClass) (c : Char) (unicode : Bool) : Bool :=
  if unicode then p.matchesUnicode T c else p.matchesByte T c

def matchClassItem (item : ClassItem) (c : Char) (flags : RegexFlags) : Bool :=
  match item with
  | .literal l => charsEqual T c l flags
  | .range lo hi =>
    if flags.caseInsensitive then
      if lo ≤ c && c ≤ hi then true
      else if flags.unicodeMode.utf || flags.unicodeMode.ucp then
        let folded := T.simpleCaseFold c
        T.simpleCaseFold lo ≤ folded && folded ≤ T.simpleCaseFold hi
      else
        match byteOf? c, byteOf? lo, byteOf? hi with
        | some candidate, some lower, some upper =>
          let folded := T.ctypeLowercaseByte candidate
          T.ctypeLowercaseByte lower ≤ folded && folded ≤ T.ctypeLowercaseByte upper
        | _, _, _ => false
    else lo ≤ c && c ≤ hi
  | .shorthand s => matchShorthand T s c flags.unicodeMode.ucp
  | .posix p negated => p.matches T c flags.unicodeMode.ucp != negated

def classMatches (negated : Bool) (items : List ClassItem) (c : Char) (flags : RegexFlags) :
    Bool :=
  (items.any fun item => matchClassItem T item c flags) != negated

end Characters

section Newlines

/-- The newline that starts with the given character before the given next one. -/
def newlineLen (convention : NewlineConvention) (first : Char) (next : Option Char) :
    Option Nat :=
  let crLf := first == '\r' && next == some '\n'
  match convention with
  | .lf => if first == '\n' then some 1 else none
  | .cr => if first == '\r' then some 1 else none
  | .crLf => if crLf then some 2 else none
  | .anyCrLf =>
    if crLf then some 2 else if first == '\r' || first == '\n' then some 1 else none
  | .any =>
    if crLf then some 2
    else if [0x0a, 0x0b, 0x0c, 0x0d, 0x85, 0x2028, 0x2029].contains first.toNat then some 1
    else none
  | .nul => if first.toNat = 0 then some 1 else none

def newlineLenAt (chars : List Char) (pos : Nat) (convention : NewlineConvention) :
    Option Nat :=
  match chars[pos]? with
  | some first => newlineLen convention first chars[pos + 1]?
  | none => none

def newlineEndsAt (chars : List Char) (pos : Nat) (convention : NewlineConvention) : Bool :=
  (0 < pos && (newlineLenAt chars (pos - 1) convention).any fun n => pos - 1 + n == pos) ||
    (1 < pos && (newlineLenAt chars (pos - 2) convention).any fun n => pos - 2 + n == pos)

def endAnchorMatches (pos : Nat) (chars : List Char) (flags : RegexFlags) : Bool :=
  if pos = chars.length then true
  else if flags.multiline then (newlineLenAt chars pos flags.lineOptions.newline).isSome
  else if flags.lineOptions.dollarEndOnly then false
  else (newlineLenAt chars pos flags.lineOptions.newline).any fun n =>
    pos + n == chars.length

def finalEndAnchorMatches (pos : Nat) (chars : List Char) (flags : RegexFlags) : Bool :=
  pos == chars.length ||
    (newlineLenAt chars pos flags.lineOptions.newline).any fun n => pos + n == chars.length

end Newlines

section Atoms

variable (T : CharTables)

def anyCharMatches (chars : List Char) (pos : Nat) (flags : RegexFlags) : Bool :=
  pos < chars.length &&
    (flags.dotall || (newlineLenAt chars pos flags.lineOptions.newline).isNone)

def notNewlineMatches (chars : List Char) (pos : Nat) (flags : RegexFlags) : Bool :=
  pos < chars.length && (newlineLenAt chars pos flags.lineOptions.newline).isNone

def anchorMatches (a : Anchor) (pos : Nat) (chars : List Char) (flags : RegexFlags)
    (searchStart : Nat) : Bool :=
  match a with
  | .start =>
    if flags.multiline then pos == 0 || newlineEndsAt chars pos flags.lineOptions.newline
    else pos == 0
  | .absoluteStart => pos == 0
  | .absoluteEnd => pos == chars.length
  | .finalEnd => finalEndAnchorMatches pos chars flags
  | .searchStart => pos == searchStart
  | .end => endAnchorMatches pos chars flags

/-- The length of the grapheme cluster at a position, from the tables' joins. -/
def graphemeClusterLen (chars : List Char) (pos : Nat) : Option Nat :=
  if pos < chars.length then
    some (1 + ((List.range' (pos + 1) (chars.length - (pos + 1))).takeWhile
      (T.joinsGrapheme chars pos)).length)
  else none

def linebreakLen (chars : List Char) (pos : Nat) (flags : RegexFlags) : Option Nat :=
  match chars[pos]? with
  | none => none
  | some first =>
    if first == '\r' && chars[pos + 1]? == some '\n' then some 2
    else if first == '\n' || first == '\r' ||
        (!flags.lineOptions.bsrAnycrlf &&
          [0x0b, 0x0c, 0x85, 0x2028, 0x2029].contains first.toNat) then some 1
    else none

end Atoms

end Rphp.Regex
