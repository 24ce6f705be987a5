import Mathlib.Algebra.Group.Nat.Defs
import Rphp.Machine
import Rphp.Regex.Syntax

namespace Rphp.Regex
set_option autoImplicit true

def checkedAdd (a b : Nat) : Option Nat :=
  if a + b ≤ usizeMax then some (a + b) else none

def checkedMul (a b : Nat) : Option Nat :=
  if a * b ≤ usizeMax then some (a * b) else none

/-- The nodes the analyses step over because they consume no input. -/
def Node.isZeroWidth : Node → Bool
  | .anchor _ | .wordBoundary _ | .lookahead .. | .lookbehind .. | .mark _ | .resetStart
  | .captureEnd .. | .captureRestore _ => true
  | _ => false

mutual

def nodeLengthRange : Node → Option (Nat × Nat)
  | .literal _ | .anyChar | .byteUnit | .notNewline | .charClass .. | .shorthand _ =>
    some (1, 1)
  | .anchor _ | .wordBoundary _ | .lookahead .. | .lookbehind .. | .mark _ | .control ..
  | .resetStart | .captureEnd .. | .captureRestore _ => some (0, 0)
  | .group _ inner | .atomic inner | .scriptRun inner _ | .localFlags _ inner =>
    nodeLengthRange inner
  | .sequence nodes => sequenceLengthRange (0, 0) nodes
  | .alternation branches => alternationLengthRange none branches
  | .quantifier inner min (some max) _ _ =>
    match nodeLengthRange inner with
    | some (lo, hi) =>
      match checkedMul lo min, checkedMul hi max with
      | some a, some b => some (a, b)
      | _, _ => none
    | none => none
  | .quantifier _ _ none _ _ | .backreference _ | .namedBackreference _ | .graphemeCluster
  | .linebreak | .subroutine _ => none
  | .conditional _ yes no =>
    match nodeLengthRange yes, optionalLengthRange no with
    | some (yesMin, yesMax), some (noMin, noMax) => some (min yesMin noMin, max yesMax noMax)
    | _, _ => none

def sequenceLengthRange (acc : Nat × Nat) : List Node → Option (Nat × Nat)
  | [] => some acc
  | node :: nodes =>
    match nodeLengthRange node with
    | some (lo, hi) =>
      match checkedAdd acc.2 hi with
      | some hi => sequenceLengthRange (acc.1 + lo, hi) nodes
      | none => none
    | none => none

def alternationLengthRange (acc : Option (Nat × Nat)) : List Node → Option (Nat × Nat)
  | [] => acc
  | branch :: branches =>
    match nodeLengthRange branch with
    | some (lo, hi) =>
      alternationLengthRange
        (some (match acc with
          | some (l, h) => (min l lo, max h hi)
          | none => (lo, hi))) branches
    | none => none

def optionalLengthRange : Option Node → Option (Nat × Nat)
  | some node => nodeLengthRange node
  | none => some (0, 0)

end

mutual

/-- Whether collecting the node can publish more than one continuation. -/
def matchStatesCanBranch : Node → Bool
  | .sequence nodes => anyCanBranch nodes
  | .alternation branches => 1 < branches.length || anyCanBranch branches
  | .quantifier .. => true
  | .group _ inner => matchStatesCanBranch inner
  | .scriptRun .. | .subroutine _ | .conditional .. => true
  | _ => false

def anyCanBranch : List Node → Bool
  | [] => false
  | node :: nodes => matchStatesCanBranch node || anyCanBranch nodes

end

mutual

def captureNeedsStreamingContinuation : Node → Bool
  | .sequence nodes | .alternation nodes => anyNeedsStreaming nodes
  | .quantifier inner _ _ _ _ =>
    matchStatesCanBranch inner || captureNeedsStreamingContinuation inner
  | .group _ inner | .lookahead _ _ inner | .lookbehind _ _ inner | .atomic inner =>
    captureNeedsStreamingContinuation inner
  | .scriptRun .. | .subroutine _ | .conditional .. => true
  | _ => false

def anyNeedsStreaming : List Node → Bool
  | [] => false
  | node :: nodes => captureNeedsStreamingContinuation node || anyNeedsStreaming nodes

end

mutual

def containsControlVerb : Node → Bool
  | .control .. => true
  | .alternation nodes | .sequence nodes => anyControlVerb nodes
  | .group _ inner | .quantifier inner _ _ _ _ | .lookahead _ _ inner | .lookbehind _ _ inner
  | .atomic inner | .scriptRun inner _ | .localFlags _ inner => containsControlVerb inner
  | .conditional _ yes none => containsControlVerb yes
  | .conditional _ yes (some no) => containsControlVerb yes || containsControlVerb no
  | _ => false

def anyControlVerb : List Node → Bool
  | [] => false
  | node :: nodes => containsControlVerb node || anyControlVerb nodes

end

mutual

def nodeDefinitelyConsumes : Node → Bool
  | .literal _ | .anyChar | .byteUnit | .notNewline | .charClass .. | .shorthand _
  | .graphemeCluster | .linebreak => true
  | .sequence nodes => anyDefinitelyConsumes nodes
  | .alternation branches => !branches.isEmpty && allDefinitelyConsume branches
  | .group _ inner | .atomic inner | .scriptRun inner _ | .localFlags _ inner =>
    nodeDefinitelyConsumes inner
  | .quantifier inner min _ _ _ => 0 < min && nodeDefinitelyConsumes inner
  | _ => false

def anyDefinitelyConsumes : List Node → Bool
  | [] => false
  | node :: nodes => nodeDefinitelyConsumes node || anyDefinitelyConsumes nodes

def allDefinitelyConsume : List Node → Bool
  | [] => true
  | node :: nodes => nodeDefinitelyConsumes node && allDefinitelyConsume nodes

end

mutual

/-- Whether every match starts at the subject start. -/
def requiredStartAnchor : Node → Bool
  | .anchor .start | .anchor .absoluteStart => true
  | .sequence nodes => requiredStartAnchorSeq nodes
  | .group _ inner | .scriptRun inner _ => requiredStartAnchor inner
  | .alternation branches => !branches.isEmpty && allRequireStartAnchor branches
  | .quantifier inner min _ _ _ => 0 < min && requiredStartAnchor inner
  | _ => false

def requiredStartAnchorSeq : List Node → Bool
  | [] => false
  | .mark _ :: nodes | .resetStart :: nodes | .captureEnd _ _ :: nodes =>
    requiredStartAnchorSeq nodes
  | node :: _ => requiredStartAnchor node

def allRequireStartAnchor : List Node → Bool
  | [] => true
  | node :: nodes => requiredStartAnchor node && allRequireStartAnchor nodes

end

mutual

/-- The literal every match must start with, when the pattern shows one. -/
def requiredStartLiteral : Node → Option Char
  | .literal c => some c
  | .sequence nodes => requiredStartLiteralSeq nodes
  | .group _ inner | .scriptRun inner _ => requiredStartLiteral inner
  | .alternation [] => none
  | .alternation (branch :: branches) =>
    match requiredStartLiteral branch with
    | some first => if allRequireStartLiteral first branches then some first else none
    | none => none
  | .quantifier inner min _ _ _ => if 0 < min then requiredStartLiteral inner else none
  | _ => none

def requiredStartLiteralSeq : List Node → Option Char
  | [] => none
  | .anchor _ :: nodes | .wordBoundary _ :: nodes | .lookahead _ _ _ :: nodes
  | .lookbehind _ _ _ :: nodes | .mark _ :: nodes | .resetStart :: nodes
  | .captureEnd _ _ :: nodes => requiredStartLiteralSeq nodes
  | node :: _ => requiredStartLiteral node

def allRequireStartLiteral (first : Char) : List Node → Bool
  | [] => true
  | node :: nodes =>
    requiredStartLiteral node == some first && allRequireStartLiteral first nodes

end

mutual

def containsBackreference : Node → Bool
  | .backreference _ | .namedBackreference _ => true
  | .group _ inner | .quantifier inner _ _ _ _ | .lookahead _ _ inner | .lookbehind _ _ inner
  | .atomic inner | .scriptRun inner _ | .localFlags _ inner => containsBackreference inner
  | .alternation nodes | .sequence nodes => anyBackreference nodes
  | .conditional .. => true
  | _ => false

def anyBackreference : List Node → Bool
  | [] => false
  | node :: nodes => containsBackreference node || anyBackreference nodes

end

/-- Repetitions of a branch that can be folded into one selection of it. -/
def absorbableRepeatedBranch : Node → Bool
  | .quantifier inner min none _ false =>
    min ≤ 1 &&
      (match inner with
      | .literal _ | .anyChar | .charClass .. | .shorthand _ | .graphemeCluster
      | .linebreak => true
      | _ => false)
  | _ => false

def partitionablePlusAtom : Node → Option Node
  | .quantifier inner 1 none true false =>
    match inner with
    | .literal _ | .anyChar | .charClass .. | .shorthand _ => some inner
    | _ => none
  | .group none inner => partitionablePlusAtom inner
  | _ => none

mutual

def firstRequiredConsumingNode : Node → Option Node
  | .literal c => some (.literal c)
  | .anyChar => some .anyChar
  | .byteUnit => some .byteUnit
  | .notNewline => some .notNewline
  | .charClass negated items => some (.charClass negated items)
  | .shorthand s => some (.shorthand s)
  | .graphemeCluster => some .graphemeCluster
  | .linebreak => some .linebreak
  | .sequence nodes => firstRequiredConsumingRest nodes
  | .group _ inner | .atomic inner | .scriptRun inner _ => firstRequiredConsumingNode inner
  | _ => none

def firstRequiredConsumingRest : List Node → Option Node
  | [] => none
  | node :: nodes =>
    match firstRequiredConsumingNode node with
    | some found => some found
    | none => if node.isZeroWidth then firstRequiredConsumingRest nodes else none

end

section Subject

variable (T : CharTables) (chars : List Char) (flags : RegexFlags)

mutual

/-- Whether a branch may start at a position; `false` means that it cannot. -/
def branchMayStartAt (pos : Nat) : Node → Bool
  | .literal l => chars[pos]?.any fun c => charsEqual T c l flags
  | .anyChar => anyCharMatches chars pos flags
  | .charClass negated items => chars[pos]?.any fun c => classMatches T negated items c flags
  | .shorthand s => chars[pos]?.any fun c => matchShorthand T s c flags.unicodeMode.ucp
  | .graphemeCluster | .linebreak => pos < chars.length
  | .sequence [] => true
  | .sequence (node :: _) => branchMayStartAt pos node
  | .group _ inner | .atomic inner => branchMayStartAt pos inner
  | .alternation branches => anyMayStartAt pos branches
  | .quantifier inner min _ _ _ => min == 0 || branchMayStartAt pos inner
  | _ => true

def anyMayStartAt (pos : Nat) : List Node → Bool
  | [] => false
  | node :: nodes => branchMayStartAt pos node || anyMayStartAt pos nodes

end

def singleAtomMatches (atom : Node) (candidate : Char) : Bool :=
  match atom with
  | .literal l => charsEqual T l candidate flags
  | .anyChar =>
    flags.dotall || (newlineLen flags.lineOptions.newline candidate none).isNone
  | .byteUnit => candidate.toNat ≤ 255
  | .notNewline => (newlineLen flags.lineOptions.newline candidate none).isNone
  | .charClass negated items => classMatches T negated items candidate flags
  | .shorthand s => matchShorthand T s candidate flags.unicodeMode.ucp
  | .graphemeCluster => true
  | .linebreak => [0x0a, 0x0d, 0x0b, 0x0c, 0x85, 0x2028, 0x2029].contains candidate.toNat
  | _ => false

def charFromU32 (n : Nat) : Option Char :=
  if n.isValidChar then some (Char.ofNat n) else none

def itemCandidates : ClassItem → Option (List Char)
  | .literal c => some [c]
  | .range lo hi =>
    if hi.toNat - lo.toNat > 255 then none
    else some ((List.range' lo.toNat (hi.toNat + 1 - lo.toNat)).filterMap charFromU32)
  | _ => none

def finiteCandidates : Node → Option (List Char)
  | .charClass false items => (items.mapM itemCandidates).map List.flatten
  | _ => none

def singleAtomsMayOverlap (left right : Node) : Bool :=
  match left, right with
  | .literal c, right => singleAtomMatches T flags right c
  | left, .literal c => singleAtomMatches T flags left c
  | left, right =>
    match finiteCandidates left with
    | some candidates => candidates.any (singleAtomMatches T flags right)
    | none =>
      match finiteCandidates right with
      | some candidates => candidates.any (singleAtomMatches T flags left)
      | none => true

/-- Scans the branches of a failed partition search: whether a recognised branch is viable
and the longest run overlapping the continuation, or nothing for an unknown viable shape. -/
def partitionRuns (continuation : Node) (pos : Nat) : List Node → Bool × Nat →
    Option (Bool × Nat)
  | [], acc => some acc
  | branch :: branches, acc =>
    match partitionablePlusAtom branch with
    | none =>
      if branchMayStartAt T chars flags pos branch then none
      else partitionRuns continuation pos branches acc
    | some atom =>
      let runLength := ((chars.drop pos).takeWhile (singleAtomMatches T flags atom)).length
      if runLength = 0 then partitionRuns continuation pos branches acc
      else if singleAtomsMayOverlap T flags atom continuation then
        partitionRuns continuation pos branches (true, max acc.2 runLength)
      else partitionRuns continuation pos branches (true, acc.2)

def partitionBranches : Node → List Node
  | .group none (.alternation branches) | .alternation branches => branches
  | .group none inner => [inner]
  | inner => [inner]

def impossiblePartitionSearchCost (inner : Node) (rest : List Node) (pos : Nat) :
    Option Nat :=
  match firstRequiredConsumingRest rest with
  | none => none
  | some continuation =>
    if (List.range' pos (chars.length - pos)).any
        (branchMayStartAt T chars flags · continuation) then none
    else
      match partitionRuns T chars flags continuation pos (partitionBranches inner) (false, 0) with
      | none => none
      | some (false, _) => none
      | some (true, 0) => some 0
      | some (true, n + 1) => if n + 2 < 64 then some (2 ^ (n + 2) - 1) else some usizeMax

end Subject

/-- Whether a star over a negated class excludes the closing delimiter, and admits the
opening one. -/
def delimiterExcludingStar (node : Node) (opening closing : Char) : Option Bool :=
  match node with
  | .quantifier (.charClass true items) 0 none true false =>
    if (items.any (· == .literal closing)) &&
        items.all fun item => item == .literal opening || item == .literal closing then
      some !(items.any (· == .literal opening))
    else none
  | _ => none

def balancedDelimiterSpec : Node → Option (Char × Char × Nat × Bool)
  | .alternation [plain, .sequence [.literal opening, content, .literal closing]] =>
    match delimiterExcludingStar plain opening closing with
    | none => none
    | some plainAllowsOpen =>
      if delimiterExcludingStar content opening closing = some plainAllowsOpen then
        some (opening, closing, 1, plainAllowsOpen)
      else
        match content with
        | .quantifier inner 0 none true false =>
          match balancedDelimiterSpec inner with
          | some (innerOpen, innerClose, depth, innerAllowsOpen) =>
            if innerOpen = opening ∧ innerClose = closing ∧ innerAllowsOpen = plainAllowsOpen
            then some (opening, closing, depth + 1, plainAllowsOpen)
            else none
          | none => none
        | _ => none
  | _ => none

mutual

def nodeIsCapturelessPure : Node → Bool
  | .literal _ | .anyChar | .byteUnit | .notNewline | .anchor _ | .charClass .. | .shorthand _
  | .wordBoundary _ | .graphemeCluster | .linebreak => true
  | .sequence nodes | .alternation nodes => allCapturelessPure nodes
  | .quantifier inner _ _ _ _ | .atomic inner | .localFlags _ inner | .group none inner =>
    nodeIsCapturelessPure inner
  | _ => false

def allCapturelessPure : List Node → Bool
  | [] => true
  | node :: nodes => nodeIsCapturelessPure node && allCapturelessPure nodes

end

/-- The literals of a class, without repeats, when it has nothing else. -/
def literalItems : List ClassItem → List Char → Option (List Char)
  | [], acc => some acc
  | .literal c :: items, acc => literalItems items (if c ∈ acc then acc else acc ++ [c])
  | _ :: _, _ => none

mutual

/-- The characters that every recognised one-character path through the node excludes. -/
def repeatableSingleCharExclusions : Node → Option (List Char)
  | .charClass true items => literalItems items []
  | .alternation branches => commonExclusions branches
  | .quantifier inner min none _ _ =>
    if min ≤ 1 then repeatableSingleCharExclusions inner else none
  | .group none inner | .atomic inner => repeatableSingleCharExclusions inner
  | _ => none

/-- The exclusions shared by all branches that have some. -/
def commonExclusions : List Node → Option (List Char)
  | [] => none
  | branch :: branches =>
    match repeatableSingleCharExclusions branch, commonExclusions branches with
    | some first, some others => some (first.filter (· ∈ others))
    | some first, none => some first
    | none, others => others

end

/-- A counter that runs down; the engine's counters are finite, `unlimited` never runs out. -/
inductive Allowance
  | finite (n : Nat)
  | unlimited
  deriving DecidableEq, Repr

namespace Allowance

def spend : Allowance → Option Allowance
  | finite 0 => none
  | finite (n + 1) => some (finite n)
  | unlimited => some unlimited

def covers (required : Nat) : Allowance → Bool
  | finite n => required ≤ n
  | unlimited => true

def min (limit : Nat) : Allowance → Allowance
  | finite n => finite (Nat.min n limit)
  | unlimited => finite limit

end Allowance

structure MatchLimits where
  backtrack : Allowance
  recursion : Allowance
  heapFrames : Allowance
  jit : Bool
  deriving DecidableEq, Repr

inductive MatchLimitError
  | backtrack | recursion | heap | jitStack
  deriving DecidableEq, Repr

structure MatchBudget where
  backtracksRemaining : Allowance
  recursionLimit : Allowance
  recursionDepth : Nat
  heapFramesRemaining : Allowance
  jitStepsRemaining : Allowance
  jit : Bool
  error : Option MatchLimitError
  deriving DecidableEq, Repr

namespace MatchBudget

def jitStepLimit : Nat := 32768

def new (limits : MatchLimits) : MatchBudget where
  backtracksRemaining := limits.backtrack
  recursionLimit := limits.recursion
  recursionDepth := 0
  heapFramesRemaining := limits.heapFrames
  jitStepsRemaining := if limits.jit then .finite jitStepLimit else .finite usizeMax
  jit := limits.jit
  error := none

def hasError (b : MatchBudget) : Bool × MatchBudget :=
  (b.error.isSome, b)

def setError (b : MatchBudget) (e : MatchLimitError) : MatchBudget :=
  { b with error := some e }

def enterRecursion (b : MatchBudget) : Bool × MatchBudget :=
  if b.error.isSome then (false, b)
  else if b.recursionLimit.covers (b.recursionDepth + 1) then
    (true, { b with recursionDepth := b.recursionDepth + 1 })
  else (false, b.setError .recursion)

def leaveRecursion (b : MatchBudget) : Unit × MatchBudget :=
  ((), { b with recursionDepth := b.recursionDepth - 1 })

def retainQuantifierContinuation (b : MatchBudget) : Bool × MatchBudget :=
  if b.error.isSome then (false, b)
  else
    match b.heapFramesRemaining.spend with
    | none => (false, b.setError .heap)
    | some frames =>
      if b.jit then
        match b.jitStepsRemaining.spend with
        | none => (false, { b with heapFramesRemaining := frames, error := some .jitStack })
        | some steps => (true, { b with heapFramesRemaining := frames, jitStepsRemaining := steps })
      else (true, { b with heapFramesRemaining := frames })

def consumeBacktrack (b : MatchBudget) : Bool × MatchBudget :=
  if b.error.isSome then (false, b)
  else
    match b.backtracksRemaining.spend with
    | none => (false, b.setError .backtrack)
    | some left => (true, { b with backtracksRemaining := left })

def rejectImpossibleSearchIfCostExceeds (required : Nat) (b : MatchBudget) :
    Bool × MatchBudget :=
  if b.backtracksRemaining.covers required then (false, b)
  else (true, b.setError .backtrack)

end MatchBudget

structure SubroutineRegistry where
  root : Node
  byIndex : Nat → Option Node
  byName : GroupName → Option Node

structure PatternSymbols where
  namedGroups : GroupName → Option Nat
  duplicateNamedGroups : GroupName → Option (List Nat)
  subroutines : Option SubroutineRegistry

/-- What an attempt reads and never changes. -/
structure Env where
  tables : CharTables
  chars : List Char
  byteOffset : Nat → Nat
  searchStart : Nat
  symbols : PatternSymbols

/-- The registers of an attempt; the active calls are those of the subroutine registry. -/
structure MatchState where
  groups : List (Option Match)
  mark : Option GroupName
  markPositions : Option (List (GroupName × Nat))
  control : Option MatchControl
  flags : RegexFlags
  activeCalls : List (SubroutineTarget × Nat)
  deriving DecidableEq, Repr

structure MatchCtx where
  state : MatchState
  budget : MatchBudget
  deriving DecidableEq, Repr

/-- A step of the engine: no value means that the evaluation ran out of fuel. -/
abbrev Matcher := StateT MatchCtx Option

def view : Matcher MatchState := fun ctx =>
  some (ctx.state, ctx)

def update (f : MatchState → MatchState) : Matcher Unit := fun ctx =>
  some ((), { ctx with state := f ctx.state })

def budgeted (op : MatchBudget → α × MatchBudget) : Matcher α := fun ctx =>
  some ((op ctx.budget).1, { ctx with budget := (op ctx.budget).2 })

def exhausted : Matcher α := fun _ => none

def restoreCaptures (saved : MatchState) : Matcher Unit :=
  update fun s =>
    { s with groups := saved.groups, mark := saved.mark, markPositions := saved.markPositions }

/-- The restore of the quantifier loops, which skip the groups when there are none to track. -/
def restoreTracked (tracks : Bool) (saved : MatchState) : Matcher Unit :=
  update fun s =>
    { s with
      groups := if tracks then saved.groups else s.groups
      mark := saved.mark
      markPositions := saved.markPositions }

def setControl (c : Option MatchControl) : Matcher Unit :=
  update fun s => { s with control := c }

def setGroup (index : Nat) (m : Option Match) : Matcher Unit :=
  update fun s => { s with groups := s.groups.set index m }

/-- Takes the control away and says whether it was an ACCEPT. -/
def takeAccepted : Matcher Bool := do
  let s ← view
  setControl none
  pure (s.control = some .accept)

/-- One possible continuation of a match. -/
structure BacktrackState where
  «end» : Nat
  groups : List (Option Match)
  mark : Option GroupName
  markPositions : Option (List (GroupName × Nat))
  deriving DecidableEq, Repr

namespace BacktrackState

def take (pos : Nat) : Matcher BacktrackState := do
  let s ← view
  update fun s => { s with groups := [], mark := none, markPositions := none }
  pure (⟨pos, s.groups, s.mark, s.markPositions⟩)

def install (b : BacktrackState) : Matcher Unit :=
  update fun s => { s with groups := b.groups, mark := b.mark, markPositions := b.markPositions }

end BacktrackState

/-- How a loop of the engine ends: with a result of its own, or at a break. -/
inductive LoopExit (α : Type)
  | «return» (result : Option Nat)
  | «break» (value : α)

/-- An absent maximum is the largest machine word, which no repetition count reaches. -/
def reachedLimit (max : Option Nat) (repetitions : Nat) : Bool :=
  max.any (· ≤ repetitions)

end Rphp.Regex
