import Mathlib.Data.List.Sort
import Rphp.Regex.Analysis

set_option autoImplicit true

namespace Rphp.Regex

/-- The two recursive entry points, with the bound on the loops that have no other. -/
structure Engine where
  fuel : Nat
  matchSeqFrom : Node → List Node → Nat → Matcher (Option Nat)
  collectMatchStatesFrom : Node → BacktrackState → Matcher (List BacktrackState)

section Steps

variable (env : Env) (E : Engine)

def matchRest (rest : List Node) (pos : Nat) : Matcher (Option Nat) := do
  let s ← view
  if s.control = some .accept then pure (some pos)
  else
    match rest with
    | [] => pure (some pos)
    | node :: rest => E.matchSeqFrom node rest pos

def advanceIf (ok : Bool) (rest : List Node) (pos : Nat) : Matcher (Option Nat) :=
  if ok then matchRest E rest pos else pure none

/-- A step inside one more level of recursion, when the limit admits it. -/
def inRecursion (refused : α) (step : Matcher α) : Matcher α := do
  if !(← budgeted MatchBudget.enterRecursion) then pure refused
  else do
    let result ← step
    budgeted MatchBudget.leaveRecursion
    pure result

def collectMatchStates (node : Node) (pos : Nat) :
    Matcher (BacktrackState × List BacktrackState) := do
  let initial ← BacktrackState.take pos
  let states ← E.collectMatchStatesFrom node initial
  pure (initial, states)

section Groups

def tryCaptureStates (index startOffset : Nat) (rest : List Node) (initial : BacktrackState) :
    List BacktrackState → Matcher (Option Nat)
  | [] => do
    initial.install
    pure none
  | state :: states => do
    state.install
    setGroup index (some ⟨startOffset, env.byteOffset state.end⟩)
    match ← matchRest E rest state.end with
    | some final => pure (some final)
    | none => tryCaptureStates index startOffset rest initial states

def matchSeqFromWithGroup (inner : Node) (rest : List Node) (pos : Nat)
    (groupIdx : Option Nat) (startOffset : Nat) : Matcher (Option Nat) :=
  match rest, groupIdx with
  | [], groupIdx => do
    match ← E.matchSeqFrom inner [] pos with
    | none => pure none
    | some final =>
      match groupIdx with
      | some index => do
        setGroup index (some ⟨startOffset, env.byteOffset final⟩)
        pure (some final)
      | none => pure (some final)
  | rest, none => E.matchSeqFrom inner rest pos
  | rest, some index =>
    if captureNeedsStreamingContinuation inner then
      E.matchSeqFrom inner (.captureEnd index startOffset :: rest) pos
    else do
      let (initial, states) ← collectMatchStates E inner pos
      tryCaptureStates env E index startOffset rest initial states

def trackedIndex (groups : List (Option Match)) (index : Option Nat) : Option Nat :=
  index.filter (· < groups.length)

def startOffsetOf (tracked : Option Nat) (pos : Nat) : Nat :=
  match tracked with
  | some _ => env.byteOffset pos
  | none => 0

/-- An ACCEPT closes the groups it leaves. -/
def closeAccepted (tracked : Option Nat) (startOffset : Nat) (result : Option Nat) :
    Option MatchControl → Matcher Unit
  | some .accept =>
    match tracked, result with
    | some index, some final => setGroup index (some ⟨startOffset, env.byteOffset final⟩)
    | _, _ => pure ()
  | _ => pure ()

def matchGroup (index : Option Nat) (inner : Node) (rest : List Node) (pos : Nat) :
    Matcher (Option Nat) :=
  inRecursion none do
    let s ← view
    let tracked := trackedIndex s.groups index
    let startOffset := startOffsetOf env tracked pos
    let result ← matchSeqFromWithGroup env E inner rest pos tracked startOffset
    let t ← view
    closeAccepted env tracked startOffset result t.control
    pure result

def matchCaptureEnd (index start : Nat) (rest : List Node) (pos : Nat) :
    Matcher (Option Nat) := do
  let s ← view
  let previous := (s.groups[index]?).join
  setGroup index (some ⟨start, env.byteOffset pos⟩)
  match ← matchRest E rest pos with
  | some final => pure (some final)
  | none => do
    setGroup index previous
    pure none

def matchCaptureRestore (groups : List (Option Match)) (rest : List Node) (pos : Nat) :
    Matcher (Option Nat) := do
  let s ← view
  update fun t => { t with groups := groups }
  match ← matchRest E rest pos with
  | some final => pure (some final)
  | none => do
    update fun t => { t with groups := s.groups }
    pure none

end Groups

section Alternatives

/-- Every branch but the first costs a backtrack. -/
def consumeAlternative (first : Bool) : Matcher Bool :=
  if first then pure true else budgeted MatchBudget.consumeBacktrack

def matchAlternation (rest : List Node) (pos : Nat) : Bool → List Node → Matcher (Option Nat)
  | _, [] => pure none
  | first, branch :: branches => do
    if !(← consumeAlternative first) then pure none
    else do
      let saved ← view
      match ← E.matchSeqFrom branch rest pos with
      | some final => pure (some final)
      | none => do
        let s ← view
        if s.control = some .then then do
          setControl none
          restoreCaptures saved
          matchAlternation rest pos false branches
        else if s.control.isSome then pure none
        else do
          restoreCaptures saved
          matchAlternation rest pos false branches

end Alternatives

section Assertions

/-- Tries the collected states of a non-atomic assertion against the rest. -/
def tryAssertionStates (rest : List Node) (pos : Nat) (accepted : Bool)
    (exhaust : Matcher (Option Nat)) : List BacktrackState → Matcher (Option Nat)
  | [] => exhaust
  | state :: states => do
    state.install
    match ← matchRest E rest pos with
    | some final => pure (some final)
    | none => do
      let s ← view
      if s.control.isSome || accepted then pure none
      else tryAssertionStates rest pos accepted exhaust states

def matchNonAtomicLookahead (inner : Node) (rest : List Node) (pos : Nat) :
    Matcher (Option Nat) := do
  let (initial, states) ← collectMatchStates E inner pos
  let accepted ← takeAccepted
  tryAssertionStates E rest pos accepted (do initial.install; pure none) states

def tryLookbehindStarts (inner : Node) (rest : List Node) (pos : Nat)
    (original : BacktrackState) : List Nat → Matcher (Option Nat)
  | [] => do
    original.install
    pure none
  | start :: starts => do
    let states ← E.collectMatchStatesFrom inner { original with «end» := start }
    let accepted ← takeAccepted
    tryAssertionStates E rest pos accepted (tryLookbehindStarts inner rest pos original starts)
      (states.filter fun state => accepted || state.end == pos)

def matchNonAtomicLookbehind (inner : Node) (rest : List Node) (pos : Nat) :
    Matcher (Option Nat) := do
  let original ← BacktrackState.take pos
  tryLookbehindStarts E inner rest pos original (List.range (pos + 1)).reverse

def matchAtomicLookahead (positive : Bool) (inner : Node) (rest : List Node) (pos : Nat) :
    Matcher (Option Nat) := do
  let saved ← view
  let result ← E.matchSeqFrom inner [] pos
  setControl none
  match positive, result with
  | true, some _ => matchRest E rest pos
  | false, none => do
    restoreCaptures saved
    matchRest E rest pos
  | _, _ => do
    restoreCaptures saved
    pure none

def matchLookahead (positive atomic : Bool) (inner : Node) (rest : List Node) (pos : Nat) :
    Matcher (Option Nat) :=
  inRecursion none
    (if positive && !atomic then matchNonAtomicLookahead E inner rest pos
    else matchAtomicLookahead E positive inner rest pos)

/-- Whether the inner pattern matches up to the position from one of the starts. -/
def lookbehindFound (inner : Node) (pos : Nat) : List Nat → Matcher Bool
  | [] => pure false
  | start :: starts => do
    let saved ← view
    let result ← E.matchSeqFrom inner [] start
    let accepted ← takeAccepted
    if accepted || result == some pos then pure true
    else do
      restoreCaptures saved
      lookbehindFound inner pos starts

def lookbehindStarts (inner : Node) (pos : Nat) : List Nat :=
  let (shortest, longest) := (nodeLengthRange inner).getD (0, pos)
  (List.range' (pos - longest) (pos - shortest + 1 - (pos - longest))).reverse

def matchAtomicLookbehind (positive : Bool) (inner : Node) (rest : List Node) (pos : Nat) :
    Matcher (Option Nat) := do
  let found ← lookbehindFound E inner pos (lookbehindStarts inner pos)
  if found = positive then matchRest E rest pos else pure none

def matchLookbehind (positive atomic : Bool) (inner : Node) (rest : List Node) (pos : Nat) :
    Matcher (Option Nat) :=
  inRecursion none
    (if positive && !atomic then matchNonAtomicLookbehind E inner rest pos
    else matchAtomicLookbehind E positive inner rest pos)

def matchAtomic (inner : Node) (rest : List Node) (pos : Nat) : Matcher (Option Nat) :=
  inRecursion none do
    match ← E.matchSeqFrom inner [] pos with
    | some final => matchRest E rest final
    | none => pure none

def tryScriptRuns (atomic accepted : Bool) (rest : List Node) (pos : Nat)
    (initial : BacktrackState) : List BacktrackState → Matcher (Option Nat)
  | [] => do
    initial.install
    pure none
  | state :: states =>
    if !accepted &&
        !env.tables.scriptRunIsValid ((env.chars.drop pos).take (state.end - pos)) then
      tryScriptRuns atomic accepted rest pos initial states
    else do
      state.install
      match ← matchRest E rest state.end with
      | some final => pure (some final)
      | none => do
        let s ← view
        if s.control.isSome || atomic || accepted then pure none
        else tryScriptRuns atomic accepted rest pos initial states

def matchScriptRun (inner : Node) (atomic : Bool) (rest : List Node) (pos : Nat) :
    Matcher (Option Nat) :=
  inRecursion none do
    let (initial, states) ← collectMatchStates E inner pos
    let accepted ← takeAccepted
    tryScriptRuns env E atomic accepted rest pos initial
      (if atomic || accepted then states.take 1 else states)

def matchLocalFlags (flags : LocalMatchFlags) (inner : Node) (rest : List Node) (pos : Nat) :
    Matcher (Option Nat) := do
  let saved ← view
  update fun s => { s with flags := s.flags.withLocal flags }
  let result ← E.matchSeqFrom inner [] pos
  update fun s => { s with flags := saved.flags }
  match result with
  | some final => matchRest E rest final
  | none => pure none

end Assertions

section References

/-- The characters of a captured span. -/
def capturedChars (m : Match) : List Char :=
  (List.range env.chars.length).filterMap fun i =>
    if m.start ≤ env.byteOffset i && env.byteOffset i < m.end then env.chars[i]? else none

def backreferenceMatches (flags : RegexFlags) : List Char → List Char → Bool
  | [], _ => true
  | _ :: _, [] => false
  | c :: captured, d :: subject =>
    charsEqual env.tables d c flags && backreferenceMatches flags captured subject

def matchBackrefByIndex (n : Nat) (rest : List Node) (pos : Nat) : Matcher (Option Nat) := do
  let s ← view
  match (s.groups[n]?).join with
  | none => pure none
  | some m =>
    let captured := capturedChars env m
    advanceIf E (backreferenceMatches env s.flags captured (env.chars.drop pos)) rest
      (pos + captured.length)

def groupIsSet (groups : List (Option Match)) (index : Nat) : Bool :=
  ((groups[index]?).join).isSome

def namedGroupIsSet (groups : List (Option Match)) (n : GroupName) : Bool :=
  match env.symbols.duplicateNamedGroups n with
  | some indices => indices.any (groupIsSet groups)
  | none => (env.symbols.namedGroups n).any (groupIsSet groups)

def firstSetNamedGroup (groups : List (Option Match)) (n : GroupName) : Option Nat :=
  match env.symbols.duplicateNamedGroups n with
  | some indices => indices.find? (groupIsSet groups)
  | none => env.symbols.namedGroups n

def matchNamedBackreference (n : GroupName) (rest : List Node) (pos : Nat) :
    Matcher (Option Nat) := do
  let s ← view
  match firstSetNamedGroup env s.groups n with
  | some index => matchBackrefByIndex env E index rest pos
  | none => pure none

def resolveSubroutine (target : SubroutineTarget) : Option Node :=
  match env.symbols.subroutines with
  | none => none
  | some registry =>
    match target with
    | .wholePattern => some registry.root
    | .group index => registry.byIndex index
    | .name n => registry.byName n

def pushSubroutineCall (target : SubroutineTarget) (pos : Nat) : Matcher Unit :=
  update fun s => { s with activeCalls := (target, pos) :: s.activeCalls }

def popSubroutineCall : Matcher Unit :=
  update fun s => { s with activeCalls := s.activeCalls.tail }

/-- The caller's registers come back after a failed call and after an ACCEPT. -/
def restoreCaller (initial : BacktrackState) (control : Option MatchControl) :
    Option Nat → Matcher Unit
  | none => initial.install
  | some _ =>
    if control = some .accept then update fun s => { s with groups := initial.groups }
    else pure ()

def callSubroutine (initial : BacktrackState) (rest : List Node) (pos : Nat) :
    Option Node → Matcher (Option Nat)
  | some node => E.matchSeqFrom node (.captureRestore initial.groups :: rest) pos
  | none => pure none

def matchSubroutine (target : SubroutineTarget) (rest : List Node) (pos : Nat) :
    Matcher (Option Nat) := do
  let s ← view
  if s.activeCalls.contains (target, pos) then pure none
  else
    inRecursion none do
      pushSubroutineCall target pos
      let initial ← BacktrackState.take pos
      let result ← callSubroutine E initial rest pos (resolveSubroutine env target)
      let t ← view
      restoreCaller initial t.control result
      popSubroutineCall
      pure result

end References

section Conditions

def conditionLookbehind (inner : Node) (pos : Nat) (saved : MatchState) :
    List Nat → Matcher Bool
  | [] => pure false
  | start :: starts => do
    restoreCaptures saved
    let result ← E.matchSeqFrom inner [] start
    let accepted ← takeAccepted
    if accepted || result == some pos then pure true
    else if ← budgeted MatchBudget.hasError then pure false
    else conditionLookbehind inner pos saved starts

def conditionMatched (lookbehind : Bool) (inner : Node) (pos : Nat) (saved : MatchState) :
    Matcher Bool :=
  if lookbehind then conditionLookbehind E inner pos saved (List.range (pos + 1)).reverse
  else do
    let result ← E.matchSeqFrom inner [] pos
    setControl none
    pure result.isSome

def assertionHolds (positive lookbehind : Bool) (inner : Node) (pos : Nat) :
    Matcher Bool := do
  let saved ← view
  let matched ← conditionMatched E lookbehind inner pos saved
  if matched ≠ positive then do
    restoreCaptures saved
    pure false
  else if matched then pure true
  else do
    restoreCaptures saved
    pure true

def callIsOnTop (target : SubroutineTarget) (calls : List (SubroutineTarget × Nat)) : Bool :=
  calls.head?.any fun call => call.1 == target

def captureConditionMatches (condition : CaptureCondition) (pos : Nat) : Matcher Bool := do
  let s ← view
  match condition with
  | .group index => pure (groupIsSet s.groups index)
  | .name n => pure (namedGroupIsSet env s.groups n)
  | .recursionTarget target => pure (callIsOnTop target s.activeCalls)
  | .ambiguousRecursion n target =>
    if (env.symbols.namedGroups n).isSome then pure (namedGroupIsSet env s.groups n)
    else
      match target with
      | some target => pure (callIsOnTop target s.activeCalls)
      | none => pure (!s.activeCalls.isEmpty)
  | .assertion positive lookbehind inner => assertionHolds E positive lookbehind inner pos
  | .always value => pure value

def matchConditional (condition : CaptureCondition) (yes : Node) (no : Option Node)
    (rest : List Node) (pos : Nat) : Matcher (Option Nat) := do
  let holds ← captureConditionMatches env E condition pos
  match if holds then some yes else no with
  | some node => E.matchSeqFrom node rest pos
  | none => matchRest E rest pos

end Conditions

section Verbs

def matchMark (n : GroupName) (rest : List Node) (pos : Nat) : Matcher (Option Nat) := do
  let saved ← view
  update fun s =>
    { s with mark := some n, markPositions := some (s.markPositions.getD [] ++ [(n, pos)]) }
  match ← matchRest E rest pos with
  | some final => pure (some final)
  | none => do
    update fun s => { s with mark := saved.mark, markPositions := saved.markPositions }
    pure none

/-- The control a failed verb leaves; an unknown SKIP name leaves none. -/
def verbControl (verb : ControlVerb) (n : Option GroupName) (pos : Nat)
    (markPositions : Option (List (GroupName × Nat))) : Option MatchControl :=
  match verb with
  | .commit => some .commit
  | .prune => some .prune
  | .then => some .then
  | .skip =>
    match n with
    | none => some (.skip pos)
    | some n =>
      ((markPositions.getD []).reverse.find? fun entry => entry.1 == n).map
        fun entry => .skip entry.2
  | .fail | .accept => none

def publishMark : Option GroupName → Matcher Unit
  | some n => update fun s => { s with mark := some n }
  | none => pure ()

def matchControl (verb : ControlVerb) (n : Option GroupName) (rest : List Node) (pos : Nat) :
    Matcher (Option Nat) := do
  publishMark n
  match verb with
  | .fail => pure none
  | .accept => do
    setControl (some .accept)
    pure (some pos)
  | verb => do
    match ← matchRest E rest pos with
    | some final => pure (some final)
    | none => do
      let s ← view
      if s.control.isNone then do
        setControl (verbControl verb n pos s.markPositions)
        pure none
      else pure none

def matchResetStart (rest : List Node) (pos : Nat) : Matcher (Option Nat) := do
  let s ← view
  match s.groups with
  | [] => matchRest E rest pos
  | saved :: _ => do
    setGroup 0 (some ⟨env.byteOffset pos, env.byteOffset pos⟩)
    match ← matchRest E rest pos with
    | some final => pure (some final)
    | none => do
      setGroup 0 saved
      pure none

end Verbs

section Quantifiers

def controlContinuation (inner : Node) (min : Nat) (max : Option Nat) (greedy : Bool)
    (rest : List Node) : List Node :=
  let nextMin := min - 1
  let nextMax := max.map (· - 1)
  if nextMin ≠ 0 ∨ nextMax ≠ some 0 then .quantifier inner nextMin nextMax greedy false :: rest
  else rest

/-- The second step when the first fails and leaves no control. -/
def orElseUncontrolled (preferred other : Matcher (Option Nat)) : Matcher (Option Nat) := do
  match ← preferred with
  | some final => pure (some final)
  | none => do
    let s ← view
    if s.control.isSome then pure none else other

def matchControlQuantifier (inner : Node) (min : Nat) (max : Option Nat) (greedy : Bool)
    (rest : List Node) (pos : Nat) : Matcher (Option Nat) :=
  let tryRepetition := E.matchSeqFrom inner (controlContinuation inner min max greedy rest) pos
  inRecursion none
    (if max = some 0 then if min = 0 then matchRest E rest pos else pure none
    else if min ≠ 0 then tryRepetition
    else if greedy then orElseUncontrolled tryRepetition (matchRest E rest pos)
    else orElseUncontrolled (matchRest E rest pos) tryRepetition)

def tryEndpoint (rest : List Node) (initial : MatchState) (endpoint : Nat) :
    Matcher (Option Nat) := do
  if !(← budgeted MatchBudget.consumeBacktrack) then pure none
  else do
    restoreCaptures initial
    matchRest E rest endpoint

def tryUniversalEndpoints (possessive : Bool) (rest : List Node) (initial : MatchState) :
    List Nat → Matcher (Option Nat)
  | [] => do
    restoreCaptures initial
    pure none
  | endpoint :: endpoints => do
    match ← tryEndpoint E rest initial endpoint with
    | some final => pure (some final)
    | none => do
      let s ← view
      if s.control.isSome then pure none
      else if possessive then do
        restoreCaptures initial
        pure none
      else tryUniversalEndpoints possessive rest initial endpoints

def matchUniversalQuantifier (greedy possessive : Bool) (rest : List Node) (pos : Nat) :
    Matcher (Option Nat) := do
  let initial ← view
  let endpoints := List.range' pos (env.chars.length + 1 - pos)
  tryUniversalEndpoints E possessive rest initial
    (if greedy then endpoints.reverse else endpoints)

/-- The depths reachable after one more character; index is depth. -/
def balancedStep (opening closing : Char) (maxDepth : Nat) (plainAllowsOpen : Bool)
    (reachable : List Bool) (candidate : Char) : List Bool :=
  if candidate = closing then
    (List.range (maxDepth + 1)).map fun depth =>
      depth < maxDepth && (reachable[depth + 1]?).getD false
  else
    (List.range (maxDepth + 1)).map fun depth =>
      ((reachable[depth]?).getD false && (candidate ≠ opening || plainAllowsOpen)) ||
        (candidate = opening && 0 < depth && (reachable[depth - 1]?).getD false)

/-- The positions at which the delimiters are balanced. -/
def balancedEndpoints (opening closing : Char) (maxDepth : Nat) (plainAllowsOpen : Bool) :
    List Bool → Nat → List Char → List Nat
  | _, _, [] => []
  | reachable, current, candidate :: chars =>
    let next := balancedStep opening closing maxDepth plainAllowsOpen reachable candidate
    if next.any id then
      let later := balancedEndpoints opening closing maxDepth plainAllowsOpen next (current + 1)
        chars
      if (next[0]?).getD false then (current + 1) :: later else later
    else []

def tryBalancedEndpoints (rest : List Node) (initial : MatchState) :
    List Nat → Matcher (Option Nat)
  | [] => do
    restoreCaptures initial
    pure none
  | endpoint :: endpoints => do
    if !(← budgeted MatchBudget.consumeBacktrack) then do
      restoreCaptures initial
      pure none
    else do
      restoreCaptures initial
      match ← matchRest E rest endpoint with
      | some final => pure (some final)
      | none => do
        let s ← view
        if s.control.isSome then pure none
        else tryBalancedEndpoints rest initial endpoints

def matchBalancedDelimiterQuantifier (opening closing : Char) (maxDepth : Nat)
    (plainAllowsOpen greedy possessive : Bool) (rest : List Node) (pos : Nat) :
    Matcher (Option Nat) := do
  let endpoints := pos :: balancedEndpoints opening closing maxDepth plainAllowsOpen
    ((List.range (maxDepth + 1)).map (· == 0)) pos (env.chars.drop pos)
  let ordered := if greedy then endpoints.reverse else endpoints
  let initial ← view
  tryBalancedEndpoints E rest initial (if possessive then ordered.take 1 else ordered)

section Terminal

def terminalFinish (min : Nat) (tracks : Bool) (initial : MatchState)
    (repetitions currentPos : Nat) : Matcher (Option Nat) := do
  if min ≤ repetitions then do
    if ← budgeted MatchBudget.hasError then pure none else pure (some currentPos)
  else do
    restoreTracked tracks initial
    pure none

/-- The loop taken when nothing follows the quantifier. -/
def terminalLoop (inner : Node) (min : Nat) (max : Option Nat) (greedy tracks : Bool)
    (initial : MatchState) : Nat → Nat → Nat → Matcher (Option Nat)
  | 0, _, _ => exhausted
  | steps + 1, repetitions, currentPos => do
    if reachedLimit max repetitions then
      terminalFinish min tracks initial repetitions currentPos
    else do
      let saved ← view
      match ← E.matchSeqFrom inner [] currentPos with
      | some nextPos => do
        let s ← view
        if s.control = some .accept then pure (some nextPos)
        else if nextPos = currentPos then do
          restoreTracked (tracks && !greedy && min < repetitions + 1) saved
          terminalFinish min tracks initial (repetitions + 1) currentPos
        else if !greedy && min ≤ repetitions + 1 then pure (some nextPos)
        else terminalLoop inner min max greedy tracks initial steps (repetitions + 1) nextPos
      | none => do
        let s ← view
        if s.control.isSome then pure none
        else do
          restoreTracked tracks saved
          terminalFinish min tracks initial repetitions currentPos

def matchTerminalQuantifier (inner : Node) (min : Nat) (max : Option Nat) (greedy : Bool)
    (pos : Nat) : Matcher (Option Nat) := do
  let initial ← view
  if !greedy && min = 0 then pure (some pos)
  else terminalLoop E inner min max greedy (1 < initial.groups.length) initial E.fuel 0 pos

end Terminal

section Preferred

/-- The rest is tried before each further repetition of a lazy quantifier. -/
def preferredAttempt (min : Nat) (greedy tracks : Bool) (rest : List Node)
    (initial : MatchState) (repetitions currentPos : Nat) : Matcher (LoopExit Unit) := do
  if min ≤ repetitions && !greedy then do
    let saved ← view
    if !(← budgeted MatchBudget.consumeBacktrack) then do
      restoreCaptures initial
      pure (.return none)
    else do
      match ← matchRest E rest currentPos with
      | some final => pure (.return (some final))
      | none => do
        let s ← view
        if s.control.isSome then pure (.return none)
        else do
          restoreTracked tracks saved
          pure (.break ())
  else pure (.break ())

/-- Follows the preferred outcome of every repetition; the states come last first. -/
def preferredLoop (inner : Node) (min : Nat) (max : Option Nat) (greedy tracks : Bool)
    (rest : List Node) (initial : MatchState) :
    Nat → Nat → Nat → List (Nat × MatchState) → Matcher (LoopExit (List (Nat × MatchState)))
  | 0, _, _, _ => exhausted
  | steps + 1, repetitions, currentPos, states => do
    match ← preferredAttempt E min greedy tracks rest initial repetitions currentPos with
    | .return result => pure (.return result)
    | .break _ => do
      let here ← view
      let states := if min ≤ repetitions then (currentPos, here) :: states else states
      if reachedLimit max repetitions then pure (.break states)
      else if !(← budgeted MatchBudget.retainQuantifierContinuation) then pure (.break states)
      else do
        let saved ← view
        match ← E.matchSeqFrom inner [] currentPos with
        | some nextPos => do
          let s ← view
          if s.control = some .accept then pure (.return (some nextPos))
          else if nextPos = currentPos then
            if min ≤ repetitions + 1 && (greedy || repetitions + 1 = min) then
              pure (.break ((currentPos, s) :: states))
            else pure (.break states)
          else
            preferredLoop inner min max greedy tracks rest initial steps (repetitions + 1) nextPos
              states
        | none => do
          let s ← view
          if s.control.isSome then pure (.return none)
          else do
            restoreTracked tracks saved
            pure (.break states)

def tryPreferredStates (tracks : Bool) (rest : List Node) (initial : MatchState) :
    List (Nat × MatchState) → Matcher (Option Nat)
  | [] => do
    restoreCaptures initial
    pure none
  | (final, saved) :: states => do
    if !(← budgeted MatchBudget.consumeBacktrack) then do
      restoreCaptures initial
      pure none
    else do
      restoreTracked tracks saved
      match ← matchRest E rest final with
      | some final => pure (some final)
      | none => do
        let s ← view
        if s.control.isSome then pure none
        else tryPreferredStates tracks rest initial states

def matchQuantifierPreferredPath (inner : Node) (min : Nat) (max : Option Nat)
    (greedy possessive : Bool) (rest : List Node) (pos : Nat) : Matcher (Option Nat) := do
  let initial ← view
  let tracks := 1 < initial.groups.length
  match ← preferredLoop E inner min max greedy tracks rest initial E.fuel 0 pos [] with
  | .return result => pure result
  | .break states =>
    if greedy then
      tryPreferredStates E tracks rest initial (if possessive then states.take 1 else states)
    else do
      restoreCaptures initial
      pure none

end Preferred

section Collected

def singlePathLoop (inner : Node) (min : Nat) (max : Option Nat) (greedy : Bool) :
    Nat → Nat → BacktrackState → List BacktrackState → Matcher (List BacktrackState)
  | 0, _, _, _ => exhausted
  | steps + 1, currentReps, current, repetitions => do
    let repetitions := if min ≤ currentReps then current :: repetitions else repetitions
    if reachedLimit max currentReps then pure repetitions
    else if !(← budgeted MatchBudget.retainQuantifierContinuation) then pure repetitions
    else do
      match (← E.collectMatchStatesFrom inner current).getLast? with
      | none => pure repetitions
      | some next =>
        if next.end = current.end then
          if min ≤ currentReps + 1 && (greedy || currentReps + 1 = min) then
            pure (next :: repetitions)
          else pure repetitions
        else singlePathLoop inner min max greedy steps (currentReps + 1) next repetitions

def collectSinglePathQuantifierStates (inner : Node) (min : Nat) (max : Option Nat)
    (greedy possessive : Bool) (state : BacktrackState) : Matcher (List BacktrackState) := do
  let repetitions ← singlePathLoop E inner min max greedy E.fuel 0 state []
  let ordered := if greedy then repetitions else repetitions.reverse
  pure (if possessive then ordered.take 1 else ordered)

/-- The states after one selection of a branch that is neither blocked nor impossible. -/
def collectSelections (state : BacktrackState) (blocked : Option Nat) :
    Nat → List Node → Matcher (List (BacktrackState × Option Nat))
  | _, [] => pure []
  | index, branch :: branches => do
    let s ← view
    let absorbable := absorbableRepeatedBranch branch
    if absorbable && blocked = some index then
      collectSelections state blocked (index + 1) branches
    else if !branchMayStartAt env.tables env.chars s.flags state.end branch then
      collectSelections state blocked (index + 1) branches
    else if !(← consumeAlternative (index == 0)) then pure []
    else do
      let next ← E.collectMatchStatesFrom branch state
      let later ← collectSelections state blocked (index + 1) branches
      pure (next.map (·, if absorbable then some index else none) ++ later)

def collectRepetition (inner : Node) (collapse : Bool) (state : BacktrackState)
    (blocked : Option Nat) : Matcher (List (BacktrackState × Option Nat)) :=
  match inner, collapse with
  | .alternation branches, true => collectSelections env E state blocked 0 branches
  | inner, _ => do
    let next ← E.collectMatchStatesFrom inner state
    pure (next.map (·, none))

abbrev PendingRepetition := Nat × BacktrackState × Option Nat

structure BranchingProgress where
  repetitions : List (Nat × BacktrackState)
  pending : List PendingRepetition
  seen : List PendingRepetition

/-- Publishes an empty repetition, or queues one that advanced and was not seen before. -/
def BranchingProgress.publish (min : Nat) (max : Option Nat) (greedy : Bool)
    (currentReps currentEnd : Nat) (p : BranchingProgress)
    (next : BacktrackState × Option Nat) : BranchingProgress :=
  let nextReps := currentReps + 1
  if next.1.end = currentEnd then
    if min ≤ nextReps && (greedy || nextReps = min) then
      { p with repetitions := p.repetitions ++ [(nextReps, next.1)] }
    else p
  else
    let equivalentReps := if max.isNone && min ≤ nextReps then min else nextReps
    let key := (equivalentReps, next.1, next.2)
    if key ∈ p.seen then p
    else { p with seen := key :: p.seen, pending := (nextReps, next.1, next.2) :: p.pending }

def branchingLoop (inner : Node) (min : Nat) (max : Option Nat) (greedy : Bool) :
    Nat → BranchingProgress → Matcher (List (Nat × BacktrackState))
  | _, ⟨repetitions, [], _⟩ => pure repetitions
  | 0, _ => exhausted
  | steps + 1, ⟨repetitions, (currentReps, state, blocked) :: pending, seen⟩ => do
    let repetitions :=
      if min ≤ currentReps then repetitions ++ [(currentReps, state)] else repetitions
    if reachedLimit max currentReps then
      branchingLoop inner min max greedy steps ⟨repetitions, pending, seen⟩
    else if !(← budgeted MatchBudget.retainQuantifierContinuation) then pure repetitions
    else do
      let next ← collectRepetition env E inner (max.isNone && min ≤ 1) state blocked
      branchingLoop inner min max greedy steps
        (next.reverse.foldl
          (BranchingProgress.publish min max greedy currentReps state.end)
          ⟨repetitions, pending, seen⟩)

/-- The published order: farthest end first for a greedy quantifier, nearest for a lazy one. -/
def repetitionLe (greedy : Bool) (a b : Nat × BacktrackState) : Bool :=
  if greedy then b.2.end < a.2.end || (b.2.end == a.2.end && a.1 ≤ b.1)
  else a.2.end < b.2.end || (a.2.end == b.2.end && b.1 ≤ a.1)

def collectBranchingQuantifierStates (inner : Node) (min : Nat) (max : Option Nat)
    (greedy possessive : Bool) (state : BacktrackState) : Matcher (List BacktrackState) := do
  let repetitions ← branchingLoop env E inner min max greedy E.fuel
    ⟨[], [(0, state, none)], []⟩
  let sorted := repetitions.insertionSort (fun a b => repetitionLe greedy a b = true)
  pure ((if possessive then sorted.take 1 else sorted).map (·.2))

end Collected

section Continued

/-- The repetitions of an atom with one outcome; the states come last first. -/
def repetitionLoop (inner : Node) (min : Nat) (max : Option Nat) (greedy tracks : Bool) :
    Nat → Nat → Nat → List (Nat × MatchState) → Matcher (LoopExit (List (Nat × MatchState)))
  | 0, _, _, _ => exhausted
  | steps + 1, currentReps, currentPos, states => do
    let here ← view
    let states := if min ≤ currentReps then (currentPos, here) :: states else states
    if reachedLimit max currentReps then pure (.break states)
    else if !(← budgeted MatchBudget.retainQuantifierContinuation) then pure (.break states)
    else do
      let saved ← view
      match ← E.matchSeqFrom inner [] currentPos with
      | some nextPos => do
        let s ← view
        if s.control = some .accept then pure (.return (some nextPos))
        else if nextPos = currentPos then
          if min ≤ currentReps + 1 && (greedy || currentReps + 1 = min) then
            pure (.break ((currentPos, s) :: states))
          else pure (.break states)
        else repetitionLoop inner min max greedy tracks steps (currentReps + 1) nextPos states
      | none => do
        let s ← view
        if s.control.isSome then pure (.return none)
        else do
          restoreTracked tracks saved
          pure (.break states)

def tryRepetitionStates (tracks : Bool) (rest : List Node) :
    List (Nat × MatchState) → Matcher (Option Nat)
  | [] => pure none
  | (final, saved) :: states => do
    if !(← budgeted MatchBudget.consumeBacktrack) then pure none
    else do
      restoreTracked tracks saved
      match ← matchRest E rest final with
      | some final => pure (some final)
      | none => do
        let s ← view
        if s.control.isSome then pure none else tryRepetitionStates tracks rest states

def matchSingleOutcomeQuantifier (inner : Node) (min : Nat) (max : Option Nat)
    (greedy possessive : Bool) (rest : List Node) (pos : Nat) : Matcher (Option Nat) := do
  let initial ← view
  let tracks := 1 < initial.groups.length
  if !(← budgeted MatchBudget.consumeBacktrack) then pure none
  else do
    match ← repetitionLoop E inner min max greedy tracks E.fuel 0 pos [] with
    | .return result => pure result
    | .break states =>
      if ← budgeted MatchBudget.hasError then pure none
      else if possessive then
        match states with
        | [] => pure none
        | (final, saved) :: _ => do
          restoreTracked tracks saved
          matchRest E rest final
      else tryRepetitionStates E tracks rest (if greedy then states else states.reverse)

def tryCollectedStates (rest : List Node) (initial : BacktrackState) :
    List BacktrackState → Matcher (Option Nat)
  | [] => do
    initial.install
    pure none
  | state :: states => do
    state.install
    match ← matchRest E rest state.end with
    | some final => pure (some final)
    | none => do
      let s ← view
      if s.control.isSome then pure none else tryCollectedStates rest initial states

def matchBranchingQuantifier (inner : Node) (min : Nat) (max : Option Nat)
    (greedy possessive : Bool) (rest : List Node) (pos : Nat) : Matcher (Option Nat) := do
  match ← matchQuantifierPreferredPath E inner min max greedy possessive rest pos with
  | some final => pure (some final)
  | none =>
    if possessive then pure none
    else if ← budgeted MatchBudget.hasError then pure none
    else do
      let initial ← BacktrackState.take pos
      let states ← collectBranchingQuantifierStates env E inner min max greedy possessive initial
      tryCollectedStates E rest initial states

end Continued

def partitionCost? (flags : RegexFlags) (inner : Node) (min : Nat) (max : Option Nat)
    (greedy possessive : Bool) (rest : List Node) (pos : Nat) : Option Nat :=
  if min = 0 && max.isNone && greedy && !possessive then
    impossiblePartitionSearchCost env.tables env.chars flags inner rest pos
  else none

def isUniversal (inner : Node) : Bool :=
  nodeIsCapturelessPure inner && repeatableSingleCharExclusions inner == some []

/-- The specialised or general loop that a quantifier without the impossible search takes. -/
def matchPossibleQuantifier (inner : Node) (min : Nat) (max : Option Nat)
    (greedy possessive : Bool) (rest : List Node) (pos : Nat) : Matcher (Option Nat) :=
  let unboundedBeforeRest := min = 0 && max.isNone && !rest.isEmpty
  if !possessive && containsControlVerb inner && nodeDefinitelyConsumes inner then
    matchControlQuantifier E inner min max greedy rest pos
  else if unboundedBeforeRest && isUniversal inner then
    matchUniversalQuantifier env E greedy possessive rest pos
  else
    match if unboundedBeforeRest then balancedDelimiterSpec inner else none with
    | some (opening, closing, depth, plainAllowsOpen) =>
      matchBalancedDelimiterQuantifier env E opening closing depth plainAllowsOpen greedy
        possessive rest pos
    | none =>
      if rest.isEmpty then matchTerminalQuantifier E inner min max greedy pos
      else if matchStatesCanBranch inner &&
          (match inner with
          | .sequence _ | .alternation _ | .quantifier .. | .group .. | .subroutine _
          | .conditional .. => true
          | _ => false) then
        matchBranchingQuantifier env E inner min max greedy possessive rest pos
      else matchSingleOutcomeQuantifier E inner min max greedy possessive rest pos

def matchQuantifier (inner : Node) (min : Nat) (max : Option Nat) (greedy possessive : Bool)
    (rest : List Node) (pos : Nat) : Matcher (Option Nat) :=
  inRecursion none do
    let s ← view
    match partitionCost? env s.flags inner min max greedy possessive rest pos with
    | some cost => do
      let _ ← budgeted (MatchBudget.rejectImpossibleSearchIfCostExceeds cost)
      pure none
    | none => matchPossibleQuantifier env E inner min max greedy possessive rest pos

end Quantifiers

def matchSeqFromStep (node : Node) (rest : List Node) (pos : Nat) : Matcher (Option Nat) := do
  if ← budgeted MatchBudget.hasError then pure none
  else do
    let s ← view
    let next := env.chars[pos]?
    match node with
    | .sequence [] => matchRest E rest pos
    | .sequence (first :: nodes) => E.matchSeqFrom first (nodes ++ rest) pos
    | .literal c => advanceIf E (next.any (charsEqual env.tables · c s.flags)) rest (pos + 1)
    | .anyChar => advanceIf E (anyCharMatches env.chars pos s.flags) rest (pos + 1)
    | .byteUnit => advanceIf E next.isSome rest (pos + 1)
    | .notNewline => advanceIf E (notNewlineMatches env.chars pos s.flags) rest (pos + 1)
    | .anchor a => advanceIf E (anchorMatches a pos env.chars s.flags env.searchStart) rest pos
    | .wordBoundary positive =>
      advanceIf E (isWordBoundary env.tables env.chars pos s.flags.unicodeMode.ucp == positive)
        rest pos
    | .charClass negated items =>
      advanceIf E (next.any (classMatches env.tables negated items · s.flags)) rest (pos + 1)
    | .shorthand sh =>
      advanceIf E (next.any (matchShorthand env.tables sh · s.flags.unicodeMode.ucp)) rest
        (pos + 1)
    | .graphemeCluster =>
      match graphemeClusterLen env.tables env.chars pos with
      | some length => matchRest E rest (pos + length)
      | none => pure none
    | .linebreak =>
      match linebreakLen env.chars pos s.flags with
      | some length => matchRest E rest (pos + length)
      | none => pure none
    | .localFlags flags inner => matchLocalFlags E flags inner rest pos
    | .alternation branches => matchAlternation E rest pos true branches
    | .group index inner => matchGroup env E index inner rest pos
    | .quantifier inner min max greedy possessive =>
      matchQuantifier env E inner min max greedy possessive rest pos
    | .backreference n => matchBackrefByIndex env E n rest pos
    | .namedBackreference n => matchNamedBackreference env E n rest pos
    | .lookahead positive atomic inner => matchLookahead E positive atomic inner rest pos
    | .lookbehind positive atomic inner => matchLookbehind E positive atomic inner rest pos
    | .atomic inner => matchAtomic E inner rest pos
    | .scriptRun inner atomic => matchScriptRun env E inner atomic rest pos
    | .mark n => matchMark E n rest pos
    | .control verb n => matchControl E verb n rest pos
    | .resetStart => matchResetStart env E rest pos
    | .subroutine target => matchSubroutine env E target rest pos
    | .conditional condition yes no => matchConditional env E condition yes no rest pos
    | .captureEnd index start => matchCaptureEnd env E index start rest pos
    | .captureRestore groups => matchCaptureRestore E groups rest pos

section Collecting

/-- Collects one node after each of the states. -/
def collectAfterEach (node : Node) : List BacktrackState → Matcher (List BacktrackState)
  | [] => pure []
  | state :: states => do
    let next ← E.collectMatchStatesFrom node state
    let later ← collectAfterEach node states
    pure (next ++ later)

def collectSequence : List Node → List BacktrackState → Matcher (List BacktrackState)
  | [], states => pure states
  | node :: nodes, states => do
    let next ← collectAfterEach E node states
    let s ← view
    if next.isEmpty || s.control = some .accept then pure next else collectSequence nodes next

def collectAlternation (state : BacktrackState) :
    Bool → List Node → Matcher (List BacktrackState)
  | _, [] => pure []
  | first, branch :: branches => do
    if !(← consumeAlternative first) then pure []
    else do
      let next ← E.collectMatchStatesFrom branch state
      let later ← collectAlternation state false branches
      pure (next ++ later)

def collectQuantifier (inner : Node) (min : Nat) (max : Option Nat) (greedy possessive : Bool)
    (state : BacktrackState) : Matcher (List BacktrackState) :=
  inRecursion []
    (if matchStatesCanBranch inner then
      collectBranchingQuantifierStates env E inner min max greedy possessive state
    else collectSinglePathQuantifierStates E inner min max greedy possessive state)

def publishGroup (tracked : Option Nat) (startOffset : Nat) (states : List BacktrackState) :
    List BacktrackState :=
  match tracked with
  | some index => states.map fun state =>
    { state with
      groups := state.groups.set index (some ⟨startOffset, env.byteOffset state.end⟩) }
  | none => states

def collectGroup (index : Option Nat) (inner : Node) (state : BacktrackState) :
    Matcher (List BacktrackState) :=
  inRecursion [] do
    let tracked := trackedIndex state.groups index
    let startOffset := startOffsetOf env tracked state.end
    let states ← E.collectMatchStatesFrom inner state
    pure (publishGroup env tracked startOffset states)

def collectTarget (state : BacktrackState) : Option Node → Matcher (List BacktrackState)
  | some node => E.collectMatchStatesFrom node state
  | none => pure []

def collectSubroutineStates (target : SubroutineTarget) (state : BacktrackState) :
    Matcher (List BacktrackState) := do
  let s ← view
  if s.activeCalls.contains (target, state.end) then pure []
  else
    inRecursion [] do
      pushSubroutineCall target state.end
      let states ← collectTarget E state (resolveSubroutine env target)
      popSubroutineCall
      pure (states.map fun next => { next with groups := state.groups })

def collectConditionalStates (condition : CaptureCondition) (yes : Node) (no : Option Node)
    (state : BacktrackState) : Matcher (List BacktrackState) := do
  state.install
  let holds ← captureConditionMatches env E condition state.end
  let state ← BacktrackState.take state.end
  match if holds then some yes else no with
  | some node => E.collectMatchStatesFrom node state
  | none => pure [state]

def collectMatchStatesFromStep (node : Node) (state : BacktrackState) :
    Matcher (List BacktrackState) := do
  if ← budgeted MatchBudget.hasError then pure []
  else
    match node with
    | .sequence nodes => collectSequence E nodes [state]
    | .alternation branches => collectAlternation E state true branches
    | .quantifier inner min max greedy possessive =>
      collectQuantifier env E inner min max greedy possessive state
    | .group index inner => collectGroup env E index inner state
    | .subroutine target => collectSubroutineStates env E target state
    | .conditional condition yes no => collectConditionalStates env E condition yes no state
    | node => do
      state.install
      match ← E.matchSeqFrom node [] state.end with
      | some final => do
        let next ← BacktrackState.take final
        pure [next]
      | none => pure []

end Collecting

end Steps

/-- The engine with a bound on the depth of its calls. -/
def engine (env : Env) : Nat → Engine
  | 0 =>
    { fuel := 0
      matchSeqFrom := fun _ _ _ => exhausted
      collectMatchStatesFrom := fun _ _ => exhausted }
  | fuel + 1 =>
    { fuel := fuel + 1
      matchSeqFrom := matchSeqFromStep env (engine env fuel)
      collectMatchStatesFrom := collectMatchStatesFromStep env (engine env fuel) }

def matchSeqFrom (env : Env) (fuel : Nat) : Node → List Node → Nat → Matcher (Option Nat) :=
  (engine env fuel).matchSeqFrom

def collectMatchStatesFrom (env : Env) (fuel : Nat) :
    Node → BacktrackState → Matcher (List BacktrackState) :=
  (engine env fuel).collectMatchStatesFrom

/-- The retry after an empty match: the first collected state that consumed something. -/
def matchNonemptyAtStart (E : Engine) (node : Node) (pos : Nat) :
    Matcher (Option Nat) := do
  let (initial, states) ← collectMatchStates E node pos
  match states.find? fun state => state.end != pos with
  | some state => do
    state.install
    pure (some state.end)
  | none => do
    initial.install
    pure none

end Rphp.Regex
