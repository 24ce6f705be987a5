import Mathlib.Algebra.GroupWithZero.Nat
import Rphp.Regex.Matcher

set_option autoImplicit true

namespace Rphp.Regex

/-- A compiled pattern; `patternMultiline` is the flag its compilation started with. -/
structure CompiledRegex where
  ast : Node
  flags : RegexFlags
  patternMultiline : Bool
  numGroups : Nat
  symbols : PatternSymbols
  definitions : List Node
  matchLimit : Option Nat
  depthLimit : Option Nat
  heapLimit : Option Nat

namespace CompiledRegex

def startLiteral (r : CompiledRegex) : Option Char :=
  requiredStartLiteral r.ast

def anchoredStart (r : CompiledRegex) : Bool :=
  !r.patternMultiline && requiredStartAnchor r.ast

def usesBackreferences (r : CompiledRegex) : Bool :=
  containsBackreference r.ast || r.definitions.any containsBackreference

end CompiledRegex

def clampAllowance (limit : Option Nat) (a : Allowance) : Allowance :=
  match limit with
  | some n => a.min n
  | none => a

def CompiledRegex.effectiveLimits (r : CompiledRegex) (limits : MatchLimits) : MatchLimits :=
  { limits with
    backtrack := clampAllowance r.matchLimit limits.backtrack
    recursion := clampAllowance r.depthLimit limits.recursion
    heapFrames :=
      clampAllowance (r.heapLimit.map fun n => min (n * 8) usizeMax) limits.heapFrames }

def nextAttemptAfterControl (control : Option MatchControl) (start : Nat) : Option Nat :=
  match control with
  | some .commit | some .accept => none
  | some (.skip position) => if start < position then some position else some (start + 1)
  | some .prune | some .then | none => some (start + 1)

/-- The byte offset of a character position. -/
def byteOffsetOf (chars : List Char) (i : Nat) : Nat :=
  if chars.all isAscii then i else ((chars.take i).map Char.utf8Size).sum

def publishOverallMatch (groups : List (Option Match)) (start final : Nat) :
    List (Option Match) :=
  let reportedStart := ((groups.head?).join.map Match.start).getD start
  groups.set 0 (some ⟨min reportedStart final, final⟩)

/-- The registers an attempt starts with. -/
def freshState (r : CompiledRegex) (slots : Nat) (calls : List (SubroutineTarget × Nat)) :
    MatchState where
  groups := List.replicate slots none
  mark := none
  markPositions := none
  control := none
  flags := r.flags
  activeCalls := calls

section Search

variable (T : CharTables) (r : CompiledRegex) (subject : List Char)

/-- The first position from a start on where the required literal stands. -/
def findStartLiteral (literal : Char) (start : Nat) : Option Nat :=
  ((subject.drop start).findIdx? fun c => charsEqual T c literal r.flags).map (start + ·)

def nextStart (start : Nat) : Option Nat :=
  match r.startLiteral with
  | some literal =>
    if r.flags.anchored then some start else findStartLiteral T r subject literal start
  | none => some start

section Boolean

def booleanEnv : Env where
  tables := T
  chars := subject
  byteOffset := if r.usesBackreferences then byteOffsetOf subject else id
  searchStart := 0
  symbols := r.symbols

def booleanSlots : Nat :=
  if r.usesBackreferences then r.numGroups + 1 else 0

/-- The attempts of the boolean search, with the budget they leave. -/
def isMatchLoop (fuel : Nat) : Nat → Nat → List (SubroutineTarget × Nat) → MatchBudget →
    Option (Except MatchLimitError Bool × MatchBudget)
  | 0, _, _, _ => none
  | steps + 1, start, calls, budget =>
    if subject.length < start then some (.ok false, budget)
    else if r.anchoredStart && !r.flags.anchored && 0 < start then some (.ok false, budget)
    else
      match nextStart T r subject start with
      | none => some (.ok false, budget)
      | some start =>
        match matchSeqFrom (booleanEnv T r subject) fuel r.ast [] start
            ⟨freshState r (booleanSlots r) calls, budget⟩ with
        | none => none
        | some (some _, ctx) => some (.ok true, ctx.budget)
        | some (none, ctx) =>
          match ctx.budget.error with
          | some e => some (.error e, ctx.budget)
          | none =>
            if r.flags.anchored then some (.ok false, ctx.budget)
            else
              match nextAttemptAfterControl ctx.state.control start with
              | none => some (.ok false, ctx.budget)
              | some next => isMatchLoop fuel steps next ctx.state.activeCalls ctx.budget

/-- The backtracking path of the boolean search. -/
def isMatchRun (fuel : Nat) (limits : MatchLimits) :
    Option (Except MatchLimitError Bool × MatchBudget) :=
  isMatchLoop T r subject fuel (subject.length + 2) 0 []
    (MatchBudget.new (r.effectiveLimits limits))

def isMatchWithLimits (fuel : Nat) (limits : MatchLimits) :
    Option (Except MatchLimitError Bool) :=
  (isMatchRun T r subject fuel limits).map Prod.fst

end Boolean

section Captures

def captureEnv (searchStart : Nat) : Env where
  tables := T
  chars := subject
  byteOffset := byteOffsetOf subject
  searchStart := searchStart
  symbols := r.symbols

/-- The published registers of a match. -/
structure Captures where
  groups : List (Option Match)
  mark : Option GroupName
  deriving DecidableEq, Repr

def startsWithLiteral (start : Nat) : Bool :=
  match r.startLiteral with
  | some literal => (subject[start]?).any fun c => charsEqual T c literal r.flags
  | none => true

/-- The attempts of the first-match search at the remaining starts. -/
def capturesLoop (fuel : Nat) : List Nat → Nat → List (SubroutineTarget × Nat) → MatchBudget →
    Option (Except MatchLimitError (Option Captures) × MatchBudget)
  | [], _, _, budget => some (.ok none, budget)
  | start :: starts, nextAllowedStart, calls, budget =>
    if start < nextAllowedStart then capturesLoop fuel starts nextAllowedStart calls budget
    else if (r.flags.anchored || r.anchoredStart) && 0 < start then some (.ok none, budget)
    else if !startsWithLiteral T r subject start then
      capturesLoop fuel starts nextAllowedStart calls budget
    else
      match matchSeqFrom (captureEnv T r subject 0) fuel r.ast [] start
          ⟨freshState r (r.numGroups + 1) calls, budget⟩ with
      | none => none
      | some (some final, ctx) =>
        some (.ok (some
          ⟨publishOverallMatch ctx.state.groups (byteOffsetOf subject start)
            (byteOffsetOf subject final), ctx.state.mark⟩), ctx.budget)
      | some (none, ctx) =>
        match ctx.budget.error with
        | some e => some (.error e, ctx.budget)
        | none =>
          match nextAttemptAfterControl ctx.state.control start with
          | none => some (.ok none, ctx.budget)
          | some next => capturesLoop fuel starts next ctx.state.activeCalls ctx.budget

def capturesRun (fuel : Nat) (limits : MatchLimits) :
    Option (Except MatchLimitError (Option Captures) × MatchBudget) :=
  capturesLoop T r subject fuel (List.range (subject.length + 1)) 0 []
    (MatchBudget.new (r.effectiveLimits limits))

def capturesWithLimits (fuel : Nat) (limits : MatchLimits) :
    Option (Except MatchLimitError (Option Captures)) :=
  (capturesRun T r subject fuel limits).map Prod.fst

end Captures

end Search

end Rphp.Regex
