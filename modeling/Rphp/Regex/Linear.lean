import Rphp.Lib.Utf8
import Rphp.Regex.Search

set_option autoImplicit true

namespace Rphp.Regex

namespace Linear

section Shapes

def isLinearConsumingAtom : Node → Bool
  | .literal _ | .anyChar | .byteUnit | .notNewline | .charClass .. | .shorthand _ => true
  | _ => false

def isLinearAtom : Node → Bool
  | .anchor _ | .wordBoundary _ => true
  | node => isLinearConsumingAtom node

/-- Atoms in a row, of which only the last may be quantified. -/
def areSupported : List Node → Bool
  | [] => true
  | [.quantifier inner _ _ _ _] => isLinearConsumingAtom inner
  | node :: nodes => isLinearAtom node && areSupported nodes

/-- A shape that needs neither backtracking into an atom nor captures. -/
def isSupported : Node → Bool
  | .sequence nodes => areSupported nodes
  | .quantifier inner _ _ _ _ => isLinearConsumingAtom inner
  | node => isLinearAtom node

theorem isLinearAtom_of_consuming (h : isLinearConsumingAtom node = true) :
    isLinearAtom node = true := by
  cases node <;> first | rfl | cases h

end Shapes

section Executor

/-- The loop of a quantifier that nothing follows: how often its atom matched, and where the
last match ended. -/
def terminalRun (atom : Nat → Option Nat) (target : Option Nat) : Nat → Nat → Nat → Nat × Nat
  | 0, repetitions, current => (repetitions, current)
  | steps + 1, repetitions, current =>
    if reachedLimit target repetitions then (repetitions, current)
    else
      match atom current with
      | some next => terminalRun atom target steps (repetitions + 1) next
      | none => (repetitions, current)

/-- A lazy quantifier stops at its minimum. -/
def terminalTarget (min : Nat) (max : Option Nat) (greedy : Bool) : Option Nat :=
  if greedy then max else some min

def matchTerminalQuantifier (atom : Nat → Option Nat) (length min : Nat) (max : Option Nat)
    (greedy : Bool) (pos : Nat) : Option Nat :=
  let (repetitions, current) :=
    terminalRun atom (terminalTarget min max greedy) (length + 1 - pos) 0 pos
  if min ≤ repetitions then some current else none

variable (atom : Node → Nat → Option Nat) (length : Nat)

mutual

/-- The executor of the linear shapes over the answers of its atoms; a subject of the given
length bounds its loops. -/
def matchNoCapture : Node → Nat → Option Nat
  | .sequence nodes, pos => matchNodes nodes pos
  | .quantifier inner min max greedy _, pos =>
    matchTerminalQuantifier (fun current => matchAtom inner current) length min max greedy pos
  | .group _ inner, pos => matchNoCapture inner pos
  | node, pos => atom node pos

def matchNodes : List Node → Nat → Option Nat
  | [], pos => some pos
  | .quantifier inner min max greedy _ :: nodes, pos =>
    (matchTerminalQuantifier (fun current => matchAtom inner current) length min max greedy
      pos).bind fun next => matchNodes nodes next
  | node :: nodes, pos => (matchAtom node pos).bind fun next => matchNodes nodes next

def matchAtom : Node → Nat → Option Nat
  | .group _ inner, pos => matchNoCapture inner pos
  | .sequence _, _ | .quantifier .., _ => none
  | node, pos => atom node pos

end

end Executor

section Chars

variable (T : CharTables) (chars : List Char) (flags : RegexFlags) (searchStart : Nat)

/-- The answer of an atom that consumes one position, or of one that consumes none. -/
def advance (consumed : Nat) (pos : Nat) (ok : Bool) : Option Nat :=
  if ok then some (pos + consumed) else none

def charAtom : Node → Nat → Option Nat
  | .literal c, pos => advance 1 pos (chars[pos]?.any (charsEqual T · c flags))
  | .anyChar, pos => advance 1 pos (anyCharMatches chars pos flags)
  | .byteUnit, pos => advance 1 pos (chars[pos]?).isSome
  | .notNewline, pos => advance 1 pos (notNewlineMatches chars pos flags)
  | .anchor a, pos => advance 0 pos (anchorMatches a pos chars flags searchStart)
  | .wordBoundary positive, pos =>
    advance 0 pos (isWordBoundary T chars pos flags.unicodeMode.ucp == positive)
  | .charClass negated items, pos =>
    advance 1 pos (chars[pos]?.any (classMatches T negated items · flags))
  | .shorthand sh, pos =>
    advance 1 pos (chars[pos]?.any (matchShorthand T sh · flags.unicodeMode.ucp))
  | _, _ => none

end Chars

theorem advance_eq_some : advance n pos ok = some next ↔ ok = true ∧ pos + n = next := by
  cases ok <;> simp [advance]

/-- An atom that consumes takes one character of the subject. -/
theorem charAtom_consumes (h : isLinearConsumingAtom node = true)
    (hnext : charAtom T chars flags searchStart node pos = some next) :
    next = pos + 1 ∧ pos < chars.length := by
  have hany : ∀ p : Char → Bool, chars[pos]?.any p = true → pos < chars.length := by
    intro p hp
    by_contra hlt
    rw [List.getElem?_eq_none (by omega)] at hp
    cases hp
  cases node with
  | literal c =>
    obtain ⟨hok, rfl⟩ := advance_eq_some.mp hnext
    exact ⟨rfl, hany _ hok⟩
  | anyChar =>
    obtain ⟨hok, rfl⟩ := advance_eq_some.mp hnext
    exact ⟨rfl, by simpa using (Bool.and_eq_true_iff.mp hok).1⟩
  | byteUnit =>
    obtain ⟨hok, rfl⟩ := advance_eq_some.mp hnext
    exact ⟨rfl, by simpa using hok⟩
  | notNewline =>
    obtain ⟨hok, rfl⟩ := advance_eq_some.mp hnext
    exact ⟨rfl, by simpa using (Bool.and_eq_true_iff.mp hok).1⟩
  | charClass negated items =>
    obtain ⟨hok, rfl⟩ := advance_eq_some.mp hnext
    exact ⟨rfl, hany _ hok⟩
  | shorthand sh =>
    obtain ⟨hok, rfl⟩ := advance_eq_some.mp hnext
    exact ⟨rfl, hany _ hok⟩
  | _ => cases h

end Linear

/-- The bytes of a subject. -/
def subjectBytes (subject : List Char) : List Nat :=
  (Lib.utf8 subject).map UInt8.toNat

namespace Ascii

section Atoms

variable (T : CharTables) (bytes : List Nat) (flags : RegexFlags) (searchStart : Nat)

/-- Ordinary items are compared as bytes, the others as the character of the byte. -/
def matchAsciiClassItem (item : ClassItem) (candidate : Nat) : Bool :=
  match item with
  | .literal l =>
    if isAscii l then
      if flags.caseInsensitive then
        T.ctypeLowercaseByte candidate == T.ctypeLowercaseByte l.toNat
      else candidate == l.toNat
    else matchClassItem T (.literal l) (Char.ofNat candidate) flags
  | .range lo hi =>
    if isAscii lo && isAscii hi then
      if flags.caseInsensitive then
        T.ctypeLowercaseByte lo.toNat ≤ T.ctypeLowercaseByte candidate &&
          T.ctypeLowercaseByte candidate ≤ T.ctypeLowercaseByte hi.toNat
      else lo.toNat ≤ candidate && candidate ≤ hi.toNat
    else matchClassItem T (.range lo hi) (Char.ofNat candidate) flags
  | item => matchClassItem T item (Char.ofNat candidate) flags

def newlineLenAtBytes (pos : Nat) (convention : NewlineConvention) : Option Nat :=
  match bytes[pos]? with
  | none => none
  | some first =>
    let crLf := first == 0x0d && bytes[pos + 1]? == some 0x0a
    match convention with
    | .lf => if first == 0x0a then some 1 else none
    | .cr => if first == 0x0d then some 1 else none
    | .crLf => if crLf then some 2 else none
    | .anyCrLf =>
      if crLf then some 2 else if first == 0x0d || first == 0x0a then some 1 else none
    | .any =>
      if crLf then some 2
      else if first == 0x0d || first == 0x0a || [0x0b, 0x0c, 0x85].contains first then some 1
      else none
    | .nul => if first == 0 then some 1 else none

def newlineEndsAtBytes (pos : Nat) (convention : NewlineConvention) : Bool :=
  (0 < pos && (newlineLenAtBytes bytes (pos - 1) convention).any fun n => pos - 1 + n == pos) ||
    (1 < pos && (newlineLenAtBytes bytes (pos - 2) convention).any fun n => pos - 2 + n == pos)

def isWordBoundaryAt (pos : Nat) (unicode : Bool) : Bool :=
  let before := 0 < pos && bytes[pos - 1]?.any fun b => isWordChar T (Char.ofNat b) unicode
  let after := bytes[pos]?.any fun b => isWordChar T (Char.ofNat b) unicode
  before != after

def anchorMatchesBytes (a : Anchor) (pos : Nat) : Bool :=
  let newline := newlineLenAtBytes bytes pos flags.lineOptions.newline
  match a with
  | .start =>
    if flags.multiline then
      pos == 0 || newlineEndsAtBytes bytes pos flags.lineOptions.newline
    else pos == 0
  | .absoluteStart => pos == 0
  | .absoluteEnd => pos == bytes.length
  | .finalEnd => pos == bytes.length || newline.any fun n => pos + n == bytes.length
  | .searchStart => pos == searchStart
  | .end =>
    if pos = bytes.length then true
    else if flags.multiline then newline.isSome
    else if flags.lineOptions.dollarEndOnly then false
    else newline.any fun n => pos + n == bytes.length

def byteAtom : Node → Nat → Option Nat
  | .literal c, pos => Linear.advance 1 pos (bytes[pos]?.any fun candidate =>
    if isAscii c && !flags.caseInsensitive then candidate == c.toNat
    else charsEqual T (Char.ofNat candidate) c flags)
  | .anyChar, pos => Linear.advance 1 pos (pos < bytes.length &&
    (flags.dotall || (newlineLenAtBytes bytes pos flags.lineOptions.newline).isNone))
  | .byteUnit, pos => Linear.advance 1 pos (pos < bytes.length)
  | .notNewline, pos => Linear.advance 1 pos (pos < bytes.length &&
    (newlineLenAtBytes bytes pos flags.lineOptions.newline).isNone)
  | .anchor a, pos => Linear.advance 0 pos (anchorMatchesBytes bytes flags searchStart a pos)
  | .wordBoundary positive, pos =>
    Linear.advance 0 pos (isWordBoundaryAt T bytes pos flags.unicodeMode.ucp == positive)
  | .charClass negated items, pos => Linear.advance 1 pos (bytes[pos]?.any fun candidate =>
    (items.any fun item => matchAsciiClassItem T flags item candidate) != negated)
  | .shorthand sh, pos => Linear.advance 1 pos (bytes[pos]?.any fun candidate =>
    matchShorthand T sh (Char.ofNat candidate) flags.unicodeMode.ucp)
  | _, _ => none

end Atoms

end Ascii

end Rphp.Regex
