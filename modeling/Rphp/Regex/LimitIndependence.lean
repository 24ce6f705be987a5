import Rphp.Regex.LimitSafety

set_option autoImplicit true

namespace Rphp.Regex

open Rphp.Lib

/-- No limit can be masked at the end of the pattern, and no ACCEPT stands in a body whose
outcomes are collected, in the pattern or in a group it calls. -/
structure CompiledRegex.ReportsLimits (r : CompiledRegex) (calls : Bool) : Prop where
  unmasked : masksLimit r.ast = false
  safe : acceptSafe calls r.ast = true
  callsSafe : ∀ env : Env, env.symbols = r.symbols → CallsSafe env calls

/-- What comes back fails exactly when a limit was reached. -/
def Reported (outcome : Option (Except MatchLimitError α × MatchBudget)) : Prop :=
  ∀ result budget, outcome = some (result, budget) →
    ∀ e, result = .error e ↔ budget.error = some e

/-- What a search must do with its limits: it fails exactly when a limit was reached, and
otherwise answers the same under all larger limits. -/
structure LimitIndependent
    (search : Nat → MatchLimits → Option (Except MatchLimitError α × MatchBudget))
    (fuel : Nat) (L : MatchLimits) : Prop where
  reported : Reported (search fuel L)
  monotone : ∀ a budget, search fuel L = some (.ok a, budget) →
    ∀ fuel' L', fuel ≤ fuel' → L.LE L' → ∃ budget', search fuel' L' = some (.ok a, budget')

section Attempts

variable {env : Env} {r : CompiledRegex} {calls : Bool}

/-- An attempt of a search: where it starts and what it starts with. -/
abbrev Attempt := Nat × MatchCtx

/-- No attempt that ends in a match has reached a limit on its way. The arm for a match does not
look at the error of the budget. -/
def MatchesClean (env : Env) (r : CompiledRegex) (fuel : Nat) (attempts : List Attempt) : Prop :=
  ∀ attempt ∈ attempts, ∀ final ctx,
    matchSeqFrom env fuel r.ast [] attempt.1 attempt.2 = some (some final, ctx) →
      ctx.budget.error = none

def cleanMatch (env : Env) (r : CompiledRegex) (fuel : Nat) (attempt : Attempt) : Bool :=
  match matchSeqFrom env fuel r.ast [] attempt.1 attempt.2 with
  | some (some _, ctx) => ctx.budget.error.isNone
  | _ => true

theorem all_cleanMatch {attempts : List Attempt} :
    attempts.all (cleanMatch env r fuel) = true ↔ MatchesClean env r fuel attempts := by
  rw [List.all_eq_true]
  refine forall₂_congr fun attempt _ => ⟨fun h final ctx hrun => ?_, fun h => ?_⟩
  · simpa [cleanMatch, hrun] using h
  · rw [cleanMatch]
    split
    · rename_i final ctx hrun
      simpa using h final ctx hrun
    · rfl

instance instDecidableMatchesClean (attempts : List Attempt) :
    Decidable (MatchesClean env r fuel attempts) :=
  decidable_of_iff _ all_cleanMatch

/-- A pattern that masks no limit has only clean matches. -/
theorem matchesClean_of_reports (hr : r.ReportsLimits calls) (hs : env.symbols = r.symbols)
    {attempts : List Attempt} (hctl : ∀ a ∈ attempts, a.2.state.control = none) :
    MatchesClean env r fuel attempts := by
  intro attempt hmem final ctx h
  have hun := (engine_unmasking (hr.callsSafe env hs) fuel).attemptsAlone hr.safe attempt.1
    attempt.2 (by simp [At, hctl attempt hmem]) _ _ h
  refine hun.resolve_right fun hm => ?_
  simp [hr.unmasked] at hm

/-- An attempt without a limit error ends the same under larger limits. -/
theorem matchSeqFrom_larger {small big : MatchBudget} {s : MatchState} (hle : small.LE big)
    (hfuel : fuel ≤ fuel')
    (h : matchSeqFrom env fuel node [] start ⟨s, small⟩ = some (result, ctx))
    (herr : ctx.budget.error = none) :
    ∃ big', matchSeqFrom env fuel' node [] start ⟨s, big⟩ = some (result, ⟨ctx.state, big'⟩) ∧
      ctx.budget.LE big' := by
  have hmono := matchSeqFrom_limitMonotone env hfuel node [] start
  obtain ⟨⟨s', big'⟩, hrun, hstate, hbig⟩ := hmono.2 ⟨s, small⟩ ⟨s, big⟩ _ _ h herr ⟨rfl, hle⟩
  obtain rfl : ctx.state = s' := hstate
  exact ⟨big', hrun, hbig⟩

end Attempts

section Loops

variable (T : CharTables) (r : CompiledRegex) (subject : List Char)

/-- The attempts that the boolean search makes. -/
def isMatchAttempts (fuel : Nat) :
    Nat → Nat → List (SubroutineTarget × Nat) → MatchBudget → List Attempt
  | 0, _, _, _ => []
  | steps + 1, start, calls, budget =>
    if subject.length < start then []
    else if r.anchoredStart && !r.flags.anchored && 0 < start then []
    else
      match nextStart T r subject start with
      | none => []
      | some start =>
        let ctx : MatchCtx := ⟨freshState r (booleanSlots r) calls, budget⟩
        (start, ctx) ::
          match matchSeqFrom (booleanEnv T r subject) fuel r.ast [] start ctx with
          | some (none, ctx) =>
            if ctx.budget.error.isSome || r.flags.anchored then []
            else
              match nextAttemptAfterControl ctx.state.control start with
              | none => []
              | some next => isMatchAttempts fuel steps next ctx.state.activeCalls ctx.budget
          | _ => []

/-- The attempts that the first-match search makes. -/
def capturesAttempts (fuel : Nat) :
    List Nat → Nat → List (SubroutineTarget × Nat) → MatchBudget → List Attempt
  | [], _, _, _ => []
  | start :: starts, nextAllowedStart, calls, budget =>
    if start < nextAllowedStart then capturesAttempts fuel starts nextAllowedStart calls budget
    else if (r.flags.anchored || r.anchoredStart) && 0 < start then []
    else if !startsWithLiteral T r subject start then
      capturesAttempts fuel starts nextAllowedStart calls budget
    else
      let ctx : MatchCtx := ⟨freshState r (r.numGroups + 1) calls, budget⟩
      (start, ctx) ::
        match matchSeqFrom (captureEnv T r subject 0) fuel r.ast [] start ctx with
        | some (none, ctx) =>
          if ctx.budget.error.isSome then []
          else
            match nextAttemptAfterControl ctx.state.control start with
            | none => []
            | some next => capturesAttempts fuel starts next ctx.state.activeCalls ctx.budget
        | _ => []

/-- The attempts of a boolean search under limits. -/
def isMatchRunAttempts (fuel : Nat) (limits : MatchLimits) : List Attempt :=
  isMatchAttempts T r subject fuel (subject.length + 2) 0 []
    (MatchBudget.new (r.effectiveLimits limits))

/-- The attempts of a first-match search under limits. -/
def capturesRunAttempts (fuel : Nat) (limits : MatchLimits) : List Attempt :=
  capturesAttempts T r subject fuel (List.range (subject.length + 1)) 0 []
    (MatchBudget.new (r.effectiveLimits limits))

variable {T r subject} {calls : Bool}

theorem isMatchAttempts_fresh {attempt : Attempt}
    (h : attempt ∈ isMatchAttempts T r subject fuel steps start active budget) :
    attempt.2.state.control = none := by
  induction steps generalizing start active budget with
  | zero => cases h
  | succ steps ih =>
    rw [isMatchAttempts] at h
    split_ifs at h
    · cases h
    · cases h
    split at h
    · cases h
    · rcases List.mem_cons.mp h with rfl | h
      · rfl
      split at h
      · split_ifs at h
        · cases h
        split at h
        · cases h
        · exact ih h
      · cases h

theorem capturesAttempts_fresh {attempt : Attempt}
    (h : attempt ∈ capturesAttempts T r subject fuel starts allowed active budget) :
    attempt.2.state.control = none := by
  induction starts generalizing allowed active budget with
  | nil => cases h
  | cons start starts ih =>
    rw [capturesAttempts] at h
    split_ifs at h
    · exact ih h
    · cases h
    · exact ih h
    · rcases List.mem_cons.mp h with rfl | h
      · rfl
      split at h
      · split_ifs at h
        · cases h
        split at h
        · cases h
        · exact ih h
      · cases h

theorem reported_none : Reported (none : Option (Except MatchLimitError α × MatchBudget)) :=
  fun _ _ h => by cases h

theorem reported_ok {a : α} {b : MatchBudget} : Reported (some (.ok a, b)) ↔ b.error = none := by
  refine ⟨fun h => ?_, fun hb result budget h e => ?_⟩
  · have hok := h _ _ rfl
    cases hb : b.error with
    | none => rfl
    | some e => simpa using (hok e).mpr hb
  · obtain ⟨rfl, rfl⟩ : _ ∧ _ := by simpa using h
    simp [hb]

theorem reported_error {b : MatchBudget} (hb : b.error = some e) :
    Reported (some ((.error e : Except MatchLimitError α), b)) := by
  intro result budget h e'
  obtain ⟨rfl, rfl⟩ : _ ∧ _ := by simpa using h
  simp [hb]

theorem matchesClean_nil {env : Env} : MatchesClean env r fuel [] := fun _ h => by cases h

theorem matchesClean_matched {env : Env} {ctx : MatchCtx}
    (h : matchSeqFrom env fuel r.ast [] start ctx = some (some final, ctx')) :
    MatchesClean env r fuel [(start, ctx)] ↔ ctx'.budget.error = none := by
  refine ⟨fun hclean => hclean _ (List.mem_singleton_self _) final ctx' h,
    fun herr a ha f c hc => ?_⟩
  rw [List.mem_singleton.mp ha] at hc
  obtain ⟨-, rfl⟩ : final = f ∧ ctx' = c := by simpa [h] using hc
  exact herr

theorem matchesClean_unfinished {env : Env} {ctx : MatchCtx}
    (h : matchSeqFrom env fuel r.ast [] start ctx = none) :
    MatchesClean env r fuel [(start, ctx)] := by
  intro a ha f c hc
  rw [List.mem_singleton.mp ha] at hc
  simp [h] at hc

theorem matchesClean_failed {env : Env} {ctx : MatchCtx} {attempts : List Attempt}
    (h : matchSeqFrom env fuel r.ast [] start ctx = some (none, ctx')) :
    MatchesClean env r fuel ((start, ctx) :: attempts) ↔ MatchesClean env r fuel attempts := by
  refine ⟨fun hclean a ha => hclean a (List.mem_cons_of_mem _ ha), fun hclean a ha f c hc => ?_⟩
  rcases List.mem_cons.mp ha with rfl | ha
  · simp [h] at hc
  · exact hclean a ha f c hc

/-- The boolean search reports its limits if and only if its matches are clean. -/
theorem isMatchLoop_reported (steps start : Nat) (active : List (SubroutineTarget × Nat))
    (hb : budget.error = none) :
    Reported (isMatchLoop T r subject fuel steps start active budget) ↔
      MatchesClean (booleanEnv T r subject) r fuel
        (isMatchAttempts T r subject fuel steps start active budget) := by
  induction steps generalizing start active budget with
  | zero => exact iff_of_true reported_none matchesClean_nil
  | succ steps ih =>
    have hdone : ∀ {b}, b.error = none → (Reported (some (Except.ok false, b)) ↔
        MatchesClean (booleanEnv T r subject) r fuel []) :=
      fun hb => iff_of_true (reported_ok.mpr hb) matchesClean_nil
    rw [isMatchLoop, isMatchAttempts]
    by_cases hend : subject.length < start
    · rw [if_pos hend, if_pos hend]
      exact hdone hb
    rw [if_neg hend, if_neg hend]
    by_cases hanchor : (r.anchoredStart && !r.flags.anchored && decide (0 < start)) = true
    · rw [if_pos hanchor, if_pos hanchor]
      exact hdone hb
    rw [if_neg hanchor, if_neg hanchor]
    cases nextStart T r subject start with
    | none => exact hdone hb
    | some next =>
      dsimp only
      split
      · rename_i hrun
        simp only [hrun]
        exact iff_of_true reported_none (matchesClean_unfinished hrun)
      · rename_i final ctx hrun
        simp only [hrun]
        rw [reported_ok, matchesClean_matched hrun]
      · rename_i ctx hrun
        simp only [hrun]
        rw [matchesClean_failed hrun]
        cases he : ctx.budget.error with
        | some e => exact iff_of_true (reported_error he) matchesClean_nil
        | none =>
          simp only [Option.isSome_none, Bool.false_or]
          by_cases hanchored : r.flags.anchored = true
          · rw [if_pos hanchored, if_pos hanchored]
            exact hdone he
          rw [if_neg hanchored, if_neg hanchored]
          cases nextAttemptAfterControl ctx.state.control next with
          | none => exact hdone he
          | some following => exact ih following ctx.state.activeCalls he

theorem isMatchLoop_larger (hfuel : fuel ≤ fuel') (hle : small.LE big)
    (hclean : MatchesClean (booleanEnv T r subject) r fuel
      (isMatchAttempts T r subject fuel steps start active small))
    (h : isMatchLoop T r subject fuel steps start active small = some (.ok found, small')) :
    ∃ big', isMatchLoop T r subject fuel' steps start active big = some (.ok found, big') := by
  induction steps generalizing start active small big with
  | zero => simp [isMatchLoop] at h
  | succ steps ih =>
    rw [isMatchLoop] at h ⊢
    rw [isMatchAttempts] at hclean
    split at h
    · obtain ⟨rfl, -⟩ : _ ∧ _ := by simpa using h
      exact ⟨big, by simp_all⟩
    rename_i hend
    rw [if_neg hend] at hclean ⊢
    split at h
    · obtain ⟨rfl, -⟩ : _ ∧ _ := by simpa using h
      exact ⟨big, by simp_all⟩
    rename_i hanchor
    rw [if_neg hanchor] at hclean ⊢
    cases hnext : nextStart T r subject start with
    | none =>
      obtain ⟨rfl, -⟩ : _ ∧ _ := by simpa [hnext] using h
      exact ⟨big, rfl⟩
    | some next =>
      simp only [hnext] at h hclean ⊢
      split at h
      · cases h
      · rename_i final ctx hrun
        obtain ⟨rfl, -⟩ : _ ∧ _ := by simpa using h
        simp only [hrun] at hclean
        obtain ⟨big', hbig, -⟩ := matchSeqFrom_larger hle hfuel hrun
          ((matchesClean_matched hrun).mp hclean)
        exact ⟨big', by simp only [hbig]⟩
      · rename_i ctx hrun
        simp only [hrun] at hclean
        rw [matchesClean_failed hrun] at hclean
        split at h
        · simp at h
        · rename_i herr
          obtain ⟨big', hbig, hle'⟩ := matchSeqFrom_larger hle hfuel hrun herr
          simp only [herr, Option.isSome_none, Bool.false_or] at hclean
          simp only [hbig, hle'.error']
          split at h
          · rename_i hanchored
            obtain ⟨rfl, -⟩ : _ ∧ _ := by simpa using h
            exact ⟨big', by simp [hanchored]⟩
          · rename_i hanchored
            rw [if_neg hanchored] at hclean
            simp only [if_neg hanchored]
            split at h
            · obtain ⟨rfl, -⟩ : _ ∧ _ := by simpa using h
              exact ⟨big', rfl⟩
            · rename_i following hcontrol
              simp only [hcontrol] at hclean
              exact ih hle' hclean h

/-- The first-match search reports its limits if and only if its matches are clean. -/
theorem capturesLoop_reported (starts : List Nat) (allowed : Nat)
    (active : List (SubroutineTarget × Nat)) (hb : budget.error = none) :
    Reported (capturesLoop T r subject fuel starts allowed active budget) ↔
      MatchesClean (captureEnv T r subject 0) r fuel
        (capturesAttempts T r subject fuel starts allowed active budget) := by
  have hdone : ∀ {b}, b.error = none → (Reported (some (Except.ok (none : Option Captures), b)) ↔
      MatchesClean (captureEnv T r subject 0) r fuel []) :=
    fun hb => iff_of_true (reported_ok.mpr hb) matchesClean_nil
  induction starts generalizing allowed active budget with
  | nil => exact hdone hb
  | cons start starts ih =>
    rw [capturesLoop, capturesAttempts]
    by_cases hskip : start < allowed
    · rw [if_pos hskip, if_pos hskip]
      exact ih allowed active hb
    rw [if_neg hskip, if_neg hskip]
    by_cases hanchor : ((r.flags.anchored || r.anchoredStart) && decide (0 < start)) = true
    · rw [if_pos hanchor, if_pos hanchor]
      exact hdone hb
    rw [if_neg hanchor, if_neg hanchor]
    by_cases hliteral : (!startsWithLiteral T r subject start) = true
    · rw [if_pos hliteral, if_pos hliteral]
      exact ih allowed active hb
    rw [if_neg hliteral, if_neg hliteral]
    dsimp only
    split
    · rename_i hrun
      simp only [hrun]
      exact iff_of_true reported_none (matchesClean_unfinished hrun)
    · rename_i final ctx hrun
      simp only [hrun]
      rw [reported_ok, matchesClean_matched hrun]
    · rename_i ctx hrun
      simp only [hrun]
      rw [matchesClean_failed hrun]
      cases he : ctx.budget.error with
      | some e => exact iff_of_true (reported_error he) matchesClean_nil
      | none =>
        cases nextAttemptAfterControl ctx.state.control start with
        | none => exact hdone he
        | some following => exact ih following ctx.state.activeCalls he

theorem capturesLoop_larger (hfuel : fuel ≤ fuel') (hle : small.LE big)
    (hclean : MatchesClean (captureEnv T r subject 0) r fuel
      (capturesAttempts T r subject fuel starts allowed active small))
    (h : capturesLoop T r subject fuel starts allowed active small = some (.ok found, small')) :
    ∃ big', capturesLoop T r subject fuel' starts allowed active big = some (.ok found, big') := by
  induction starts generalizing allowed active small big with
  | nil =>
    obtain ⟨rfl, -⟩ : _ ∧ _ := by simpa [capturesLoop] using h
    exact ⟨big, rfl⟩
  | cons start starts ih =>
    rw [capturesLoop] at h ⊢
    rw [capturesAttempts] at hclean
    split at h
    · rename_i hskip
      rw [if_pos hskip] at hclean ⊢
      exact ih hle hclean h
    rename_i hskip
    rw [if_neg hskip] at hclean ⊢
    split at h
    · rename_i hanchor
      obtain ⟨rfl, -⟩ : _ ∧ _ := by simpa using h
      exact ⟨big, by rw [if_pos hanchor]⟩
    rename_i hanchor
    rw [if_neg hanchor] at hclean ⊢
    split at h
    · rename_i hliteral
      rw [if_pos hliteral] at hclean ⊢
      exact ih hle hclean h
    rename_i hliteral
    rw [if_neg hliteral] at hclean ⊢
    dsimp only at hclean
    split at h
    · cases h
    · rename_i final ctx hrun
      obtain ⟨rfl, -⟩ : _ ∧ _ := by simpa using h
      simp only [hrun] at hclean
      obtain ⟨big', hbig, -⟩ := matchSeqFrom_larger hle hfuel hrun
        ((matchesClean_matched hrun).mp hclean)
      exact ⟨big', by simp only [hbig]⟩
    · rename_i ctx hrun
      simp only [hrun] at hclean
      rw [matchesClean_failed hrun] at hclean
      split at h
      · simp at h
      · rename_i herr
        obtain ⟨big', hbig, hle'⟩ := matchSeqFrom_larger hle hfuel hrun herr
        simp only [herr, Option.isSome_none, Bool.false_eq_true, if_false] at hclean
        simp only [hbig, hle'.error']
        split at h
        · obtain ⟨rfl, -⟩ : _ ∧ _ := by simpa using h
          exact ⟨big', rfl⟩
        · rename_i following hcontrol
          simp only [hcontrol] at hclean
          exact ih hle' hclean h

end Loops

section Examples

/-- Tables without case folding or properties, enough for ASCII letters. -/
def plainTables : CharTables where
  simpleCaseFold := id
  generalCategory := fun _ => ('C', 'n')
  propertyMatches := fun _ _ => false
  isAlphanumeric := Char.isAlphanum
  isWhitespace := Char.isWhitespace
  joinsGrapheme := fun _ _ _ => false
  scriptRunIsValid := fun _ => true
  ctypeByteMatches := fun _ _ => false
  ctypeLowercaseByte := id

def plainRegex (ast : Node) : CompiledRegex where
  ast := ast
  flags := RegexFlags.default
  patternMultiline := false
  numGroups := 0
  symbols := ⟨fun _ => none, fun _ => none, none⟩
  definitions := []
  matchLimit := none
  depthLimit := none
  heapLimit := none

/-- The pattern `^(?!a|b)`. -/
def notAOrB : CompiledRegex :=
  plainRegex (.sequence [.anchor .start,
    .lookahead false true (.alternation [.literal 'a', .literal 'b'])])

def backtrackLimit (n : Nat) : MatchLimits :=
  ⟨.finite n, .finite 10, .finite 1000, false⟩

/-- The pattern `^(?!a|b)c`, in which the lookahead does not stand at the end. -/
def notAOrBThenC : CompiledRegex :=
  plainRegex (.sequence [.anchor .start,
    .lookahead false true (.alternation [.literal 'a', .literal 'b']), .literal 'c'])

theorem notAOrBThenC_reports : notAOrBThenC.ReportsLimits true := by
  refine ⟨by decide +kernel, by decide +kernel, fun env henv => ⟨?_, ?_⟩⟩
  · intro target node htarget
    simp [resolveSubroutine, henv, notAOrBThenC, plainRegex] at htarget
  · intro _ target node htarget
    simp [resolveSubroutine, henv, notAOrBThenC, plainRegex] at htarget

end Examples

end Rphp.Regex
