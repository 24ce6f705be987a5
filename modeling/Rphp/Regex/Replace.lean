import Rphp.Lib.Bytes
import Rphp.Lib.Decimal
import Rphp.Regex.Linear

set_option autoImplicit true

namespace Rphp.Regex

open Rphp.Lib

section Templates

/-- Whether a byte offset may cut a text. -/
def isCharBoundary (text : List UInt8) (i : Nat) : Bool :=
  i == 0 || i == text.length || (text[i]?).any fun byte => byte < 128 || 192 ≤ byte

/-- A part of a text; no value is a panic. -/
def slice (text : List UInt8) (start stop : Nat) : Option (List UInt8) :=
  if isCharBoundary text start ∧ isCharBoundary text stop then Lib.slice text start stop else none

/-- The number a text stands for, with an optional plus sign. -/
def parseUsize (text : List UInt8) : Option Nat :=
  let digits := if text.head? = some 43 then text.tail else text
  if digits = [] ∨ ¬ digits.all isDigit ∨ usizeMax < digitsValue digits then none
  else some (digitsValue digits)

/-- The group of a reference of at most two digits, and what stands behind it. -/
def digitsReference (rest : List UInt8) : Option (Nat × List UInt8) :=
  if (rest.head?).any isDigit then
    let digits := (rest.take 2).takeWhile isDigit
    some (digitsValue digits, rest.drop digits.length)
  else none

/-- The group of a reference in braces, and what stands behind it. -/
def bracedReference (rest : List UInt8) : Option (Nat × List UInt8) :=
  match rest.findIdx? (· == 125) with
  | some length => (parseUsize (rest.take length)).map fun n => (n, rest.drop (length + 1))
  | none => none

/-- The reference that starts with a byte of a template. -/
def reference? (byte : UInt8) (rest : List UInt8) : Option (Nat × List UInt8) :=
  if byte = 36 then
    if rest.head? = some 123 then bracedReference rest.tail else digitsReference rest
  else if byte = 92 then digitsReference rest
  else none

/-- The bytes of the character that starts with a byte. -/
def charWidth (lead : UInt8) : Nat :=
  if lead < 128 then 1 else if lead < 224 then 2 else if lead < 240 then 3 else 4

theorem reference_length {rest : List UInt8} (h : reference? byte rest = some (n, after)) :
    after.length ≤ rest.length := by
  have hdigits : ∀ {after : List UInt8}, digitsReference rest = some (n, after) →
      after.length ≤ rest.length := by
    intro after h
    unfold digitsReference at h
    split at h
    · cases h
      rw [List.length_drop]
      omega
    · cases h
  unfold reference? bracedReference at h
  split_ifs at h
  · split at h
    · obtain ⟨m, -, hafter⟩ := Option.map_eq_some_iff.mp h
      cases hafter
      rw [List.length_drop, List.length_tail]
      omega
    · cases h
  · exact hdigits h
  · exact hdigits h

theorem charWidth_pos (lead : UInt8) : 0 < charWidth lead := by
  unfold charWidth
  split_ifs <;> decide

variable (groups : List (Option Match)) (input : List UInt8)

/-- The text of a group, nothing for a group that is not set. -/
def groupText (n : Nat) : Option (List UInt8) :=
  match (groups[n]?).join with
  | some m => slice input m.start m.end
  | none => some []

def expandReplacement : List UInt8 → Option (List UInt8)
  | [] => some []
  | byte :: rest =>
    match _hreference : reference? byte rest with
    | some (n, after) => do
      let text ← groupText groups input n
      let more ← expandReplacement after
      some (text ++ more)
    | none => do
      let more ← expandReplacement ((byte :: rest).drop (charWidth byte))
      some ((byte :: rest).take (charWidth byte) ++ more)
termination_by repl => repl.length
decreasing_by
  · exact Nat.lt_succ_of_le (reference_length _hreference)
  · have := charWidth_pos byte
    rw [List.length_drop, List.length_cons]
    omega

end Templates

/-- Why a replacement does not return: a limit, a panic, or the bounds of the model. -/
inductive ReplaceFailure
  | limit (e : MatchLimitError)
  | panic
  | fuel
  | steps
  deriving DecidableEq, Repr

def orPanic (x : Option α) : Except ReplaceFailure α :=
  match x with
  | some a => .ok a
  | none => .error .panic

structure Replaced where
  result : List UInt8
  count : Nat
  deriving DecidableEq, Repr

section General

variable (T : CharTables) (r : CompiledRegex) (subject : List Char) (replacement : List UInt8)
  (limit fuel : Nat)

structure ReplaceState where
  result : List UInt8
  pos : Nat
  searchStart : Nat
  count : Nat
  retryNonempty : Bool
  calls : List (SubroutineTarget × Nat)
  budget : MatchBudget

/-- The next start that the filters admit. -/
def skipStarts (retryNonempty : Bool) (pos : Nat) : Option Nat :=
  if retryNonempty || r.flags.anchored then some pos
  else if r.anchoredStart && 0 < pos then none
  else
    match r.startLiteral with
    | some literal => findStartLiteral T r subject literal pos
    | none => some pos

def replaceAttempt (retryNonempty : Bool) (pos searchStart : Nat) (ctx : MatchCtx) :
    Option (Option Nat × MatchCtx) :=
  let env := captureEnv T r subject searchStart
  if retryNonempty then matchNonemptyAtStart (engine env fuel) r.ast pos ctx
  else matchSeqFrom env fuel r.ast [] pos ctx

/-- The rest of the subject is copied and the loop left. -/
def copyRest (s : ReplaceState) : Except ReplaceFailure Replaced := do
  let text := utf8 subject
  let rest ← orPanic (slice text (byteOffsetOf subject s.pos) text.length)
  .ok ⟨s.result ++ rest, s.count⟩

/-- The text that the start filters skip is copied. -/
def copySkipped (s : ReplaceState) (next : Nat) : Except ReplaceFailure ReplaceState :=
  if s.pos < next then do
    let skipped ← orPanic
      (slice (utf8 subject) (byteOffsetOf subject s.pos) (byteOffsetOf subject next))
    .ok { s with result := s.result ++ skipped, pos := next }
  else .ok s

/-- A match: the text before it, its expansion, and where the next attempt starts. -/
def replaceMatch (s : ReplaceState) (groups : List (Option Match)) (final : Nat) :
    Except ReplaceFailure ReplaceState := do
  let text := utf8 subject
  let published := publishOverallMatch groups (byteOffsetOf subject s.pos)
    (byteOffsetOf subject final)
  let m ← orPanic (published.head?).join
  let before ← orPanic (slice text (byteOffsetOf subject s.pos) m.start)
  let expansion ← orPanic (expandReplacement published text replacement)
  let s := { s with result := s.result ++ before ++ expansion, count := s.count + 1 }
  if final = s.pos then .ok { s with retryNonempty := true, searchStart := s.pos }
  else .ok { s with retryNonempty := false, pos := final, searchStart := final }

/-- A failed retry steps over one character. -/
def stepOver (s : ReplaceState) : ReplaceState :=
  { s with
    result := s.result ++ ((subject[s.pos]?).map String.utf8EncodeChar).getD []
    retryNonempty := false
    pos := s.pos + 1
    searchStart := s.pos + 1 }

/-- A failed attempt: the loop is left, steps over a character, or goes on where the control
says. -/
def afterFailure (s : ReplaceState) (control : Option MatchControl) :
    Except ReplaceFailure (Replaced ⊕ ReplaceState) :=
  if r.flags.anchored then .inl <$> copyRest subject s
  else if s.retryNonempty then .ok (.inr (stepOver subject s))
  else
    match nextAttemptAfterControl control s.pos with
    | none => .inl <$> copyRest subject s
    | some next => do
      let skipped ← orPanic (slice (utf8 subject) (byteOffsetOf subject s.pos)
        (byteOffsetOf subject (min next subject.length)))
      .ok (.inr { s with result := s.result ++ skipped, pos := next })

def afterAttempt (s : ReplaceState) :
    Option (Option Nat × MatchCtx) → Except ReplaceFailure (Replaced ⊕ ReplaceState)
  | none => .error .fuel
  | some (result, ctx) =>
    match ctx.budget.error with
    | some e => .error (.limit e)
    | none =>
      let s := { s with calls := ctx.state.activeCalls, budget := ctx.budget }
      match result with
      | some final => .inr <$> replaceMatch subject replacement s ctx.state.groups final
      | none => afterFailure r subject s ctx.state.control

/-- One turn of the loop: its result, or the state of the next turn. -/
def replaceTurn (s : ReplaceState) : Except ReplaceFailure (Replaced ⊕ ReplaceState) :=
  if subject.length < s.pos then .ok (.inl ⟨s.result, s.count⟩)
  else if s.count = limit then .inl <$> copyRest subject s
  else
    match skipStarts T r subject s.retryNonempty s.pos with
    | none => .inl <$> copyRest subject s
    | some next => do
      let s ← copySkipped subject s next
      afterAttempt r subject replacement s
        (replaceAttempt T r subject fuel s.retryNonempty s.pos s.searchStart
          ⟨freshState r (r.numGroups + 1) s.calls, s.budget⟩)

/-- The loop over the attempts. -/
def replaceLoop : Nat → ReplaceState → Except ReplaceFailure Replaced
  | 0, _ => .error .steps
  | steps + 1, s => do
    match ← replaceTurn T r subject replacement limit fuel s with
    | .inl out => .ok out
    | .inr s => replaceLoop steps s

/-- The backtracks are scaled down, but never to none. -/
def scaledReplacementLimits (scale : Nat) (limits : MatchLimits) : MatchLimits :=
  let limits := r.effectiveLimits limits
  match limits.backtrack with
  | .finite n =>
    if 1 < scale ∧ 0 < n then { limits with backtrack := .finite (max (n / scale) 1) } else limits
  | .unlimited => limits

/-- The attempts through the backtracking matcher. -/
def replaceGeneral (scale : Nat) (limits : MatchLimits) : Except ReplaceFailure Replaced :=
  replaceLoop T r subject replacement limit fuel (2 * subject.length + 4)
    { result := []
      pos := 0
      searchStart := 0
      count := 0
      retryNonempty := false
      calls := []
      budget := MatchBudget.new (scaledReplacementLimits r scale limits) }

end General

section Visits

/-- A scan for non-overlapping matches: the positions, their offsets, the next start that the
literal admits, and where the match at a start ends. -/
structure LinearScan where
  length : Nat
  offset : Nat → Nat
  nextStart : Nat → Option Nat
  attempt : Nat → Nat → Option Nat
  anchored : Bool

structure VisitState where
  result : List UInt8
  copiedUntil : Nat
  pos : Nat
  searchStart : Nat
  count : Nat

variable (scan : LinearScan) (text replacement : List UInt8) (limit : Nat)

def finishVisit (s : VisitState) : Except ReplaceFailure Replaced := do
  let rest ← orPanic (slice text s.copiedUntil text.length)
  .ok ⟨s.result ++ rest, s.count⟩

/-- The visitor of a match: the text since the last one and the expansion. -/
def visitMatch (s : VisitState) (m : Match) : Except ReplaceFailure VisitState := do
  let before ← orPanic (slice text s.copiedUntil m.start)
  let expansion ← orPanic (expandReplacement [some m] text replacement)
  .ok { s with
    result := s.result ++ before ++ expansion
    copiedUntil := m.end
    count := s.count + 1 }

/-- One turn of the scan: its result, or the state of the next turn. -/
def visitTurn (s : VisitState) : Except ReplaceFailure (Replaced ⊕ VisitState) :=
  if scan.length < s.pos then .inl <$> finishVisit text s
  else
    match scan.nextStart s.pos with
    | none => .inl <$> finishVisit text s
    | some pos =>
      match scan.attempt pos s.searchStart with
      | some final =>
        if s.count = limit then .inl <$> finishVisit text s
        else do
          let s ← visitMatch text replacement s ⟨scan.offset pos, scan.offset final⟩
          let next := if final = pos then pos + 1 else final
          .ok (.inr { s with pos := next, searchStart := next })
      | none =>
        if scan.anchored then .inl <$> finishVisit text s
        else .ok (.inr { s with pos := pos + 1 })

def visitLoop : Nat → VisitState → Except ReplaceFailure Replaced
  | 0, _ => .error .steps
  | steps + 1, s => do
    match ← visitTurn scan text replacement limit s with
    | .inl out => .ok out
    | .inr s => visitLoop steps s

end Visits

namespace Ascii

/-- The quantifier behind a fixed prefix. -/
structure Tail where
  inner : Node
  min : Nat
  max : Option Nat
  greedy : Bool

structure PrefixPlan where
  prefixBytes : List UInt8
  tail : Option Tail

def tail? : Node → Option Tail
  | .quantifier inner min max greedy _ => some ⟨inner, min, max, greedy⟩
  | _ => none

def prefixLimit : Nat := 32

/-- Literals in a row, of which only the last node may be a quantifier. -/
def prefixNodes (taken : List UInt8) : List Node → Option PrefixPlan
  | [] => some ⟨taken, none⟩
  | .literal c :: nodes =>
    if isAscii c && taken.length ≠ prefixLimit then
      prefixNodes (taken ++ [UInt8.ofNat c.toNat]) nodes
    else none
  | [node] => (tail? node).map fun tail => ⟨taken, some tail⟩
  | _ :: _ :: _ => none

def prefixPlan (node : Node) : Option PrefixPlan :=
  let plan := match node with
    | .sequence nodes => prefixNodes [] nodes
    | node => prefixNodes [] [node]
  plan.filter fun plan => !plan.prefixBytes.isEmpty

def classTailPlan : Node → Option Tail
  | .quantifier (.charClass negated items) min max greedy _ =>
    some ⟨.charClass negated items, min, max, greedy⟩
  | _ => none

variable (T : CharTables) (bytes : List Nat) (flags : RegexFlags)

def matchTail (tail : Tail) (pos : Nat) : Option Nat :=
  Linear.matchTerminalQuantifier
    (fun current => Linear.matchAtom (byteAtom T bytes flags 0) bytes.length tail.inner current)
    bytes.length tail.min tail.max tail.greedy pos

def matchPrefixPlan (plan : PrefixPlan) (pos : Nat) : Option Nat :=
  let prefixEnd := pos + plan.prefixBytes.length
  if prefixEnd ≤ bytes.length ∧
      (bytes.drop pos).take plan.prefixBytes.length = plan.prefixBytes.map UInt8.toNat then
    match plan.tail with
    | some tail => matchTail T bytes flags tail prefixEnd
    | none => some prefixEnd
  else none

def findLiteral (literal : Char) (pos : Nat) : Option Nat :=
  ((bytes.drop pos).findIdx? (· == literal.toNat)).map (pos + ·)

/-- The scan over the bytes of an ASCII subject, for the shapes that it knows. -/
def visitScan (r : CompiledRegex) : Option LinearScan :=
  if r.flags.caseInsensitive then none
  else
    let scan := fun attempt : Nat → Option Nat =>
      { length := bytes.length
        offset := id
        nextStart := fun pos =>
          match r.startLiteral with
          | some literal => findLiteral bytes literal pos
          | none => some pos
        attempt := fun pos _ => attempt pos
        anchored := false : LinearScan }
    match prefixPlan r.ast, classTailPlan r.ast with
    | some plan, _ => some (scan (matchPrefixPlan T bytes r.flags plan))
    | none, some tail => some (scan (matchTail T bytes r.flags tail))
    | none, none => none

end Ascii

section Replacing

variable (T : CharTables) (r : CompiledRegex) (subject : List Char) (replacement : List UInt8)
  (limit fuel : Nat)

/-- The scan over the characters of a subject. -/
def charScan : LinearScan where
  length := subject.length
  offset := byteOffsetOf subject
  nextStart := nextStart T r subject
  attempt := fun pos searchStart =>
    Linear.matchNoCapture (Linear.charAtom T subject r.flags searchStart) subject.length r.ast pos
  anchored := r.flags.anchored

/-- The byte scan of an ASCII subject when it knows the shape, else the character scan. -/
def linearScan : LinearScan :=
  if subject.all isAscii && !r.flags.anchored then
    (Ascii.visitScan T (subjectBytes subject) r).getD (charScan T r subject)
  else charScan T r subject

def replaceLinear : Except ReplaceFailure Replaced :=
  visitLoop (linearScan T r subject) (utf8 subject) replacement limit
    ((linearScan T r subject).length + 2) ⟨[], 0, 0, 0, 0⟩

def MatchLimits.default : MatchLimits where
  backtrack := .finite 1000000
  recursion := .finite 100000
  heapFrames := .finite usizeMax
  jit := false

def replaceLimitWithLimits (scale : Nat) (limits : MatchLimits) :
    Except ReplaceFailure Replaced :=
  if limit = 0 then .ok ⟨utf8 subject, 0⟩
  else if r.effectiveLimits limits = MatchLimits.default ∧ r.numGroups = 0 ∧
      nodeDefinitelyConsumes r.ast ∧ Linear.isSupported r.ast then
    replaceLinear T r subject replacement limit
  else replaceGeneral T r subject replacement limit fuel scale limits

end Replacing

end Rphp.Regex
