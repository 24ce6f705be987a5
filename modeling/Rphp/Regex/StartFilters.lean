import Rphp.Regex.LimitIndependence
import Rphp.Regex.Rejecting

set_option autoImplicit true

namespace Rphp.Regex

open Rphp.Lib

section Required

variable {env : Env} {flags : RegexFlags} {pos : Nat}

section Literal

/-- The literal does not stand at the position. -/
abbrev LacksLiteral (env : Env) (flags : RegexFlags) (pos : Nat) (literal : Char) : Prop :=
  (env.chars[pos]?).any (charsEqual env.tables · literal flags) = false

mutual

/-- A position without the literal that every match starts with is rejected. -/
theorem rejects_of_requiredStartLiteral (hlacks : LacksLiteral env flags pos literal) :
    ∀ node : Node, requiredStartLiteral node = some literal → Rejects env flags pos node
  | .literal c, h => by
    cases h
    exact hlacks
  | .sequence nodes, h => rejectsFirst_of_requiredStartLiteral hlacks nodes h
  | .group _ inner, h => rejects_of_requiredStartLiteral hlacks inner h
  | .scriptRun inner _, h => rejects_of_requiredStartLiteral hlacks inner h
  | .alternation [], h => nomatch h
  | .alternation (branch :: branches), h => by
    rw [requiredStartLiteral] at h
    split at h
    · rename_i first hfirst
      split at h
      · rename_i hall
        cases h
        exact ⟨rejects_of_requiredStartLiteral hlacks branch hfirst,
          rejectsAll_of_requiredStartLiteral hlacks branches hall⟩
      · cases h
    · cases h
  | .quantifier inner min _ _ _, h => by
    rw [requiredStartLiteral] at h
    split at h
    · exact ⟨‹0 < min›, rejects_of_requiredStartLiteral hlacks inner h⟩
    · cases h

theorem rejectsFirst_of_requiredStartLiteral (hlacks : LacksLiteral env flags pos literal) :
    ∀ nodes : List Node, requiredStartLiteralSeq nodes = some literal →
      RejectsFirst env flags pos nodes
  | node :: nodes, h => by
    have hnode (hfirst : requiredStartLiteral node = some literal) :
        RejectsFirst env flags pos (node :: nodes) :=
      .inl (rejects_of_requiredStartLiteral hlacks node hfirst)
    cases node with
    | anchor | wordBoundary | lookahead | lookbehind | mark | resetStart | captureEnd =>
      exact .inr ⟨rfl, rejectsFirst_of_requiredStartLiteral hlacks nodes h⟩
    | _ => exact hnode h

theorem rejectsAll_of_requiredStartLiteral (hlacks : LacksLiteral env flags pos literal) :
    ∀ nodes : List Node, allRequireStartLiteral literal nodes = true →
      RejectsAll env flags pos nodes
  | [], _ => trivial
  | node :: nodes, h => by
    rw [allRequireStartLiteral, Bool.and_eq_true, beq_iff_eq] at h
    exact ⟨rejects_of_requiredStartLiteral hlacks node h.1,
      rejectsAll_of_requiredStartLiteral hlacks nodes h.2⟩

end

end Literal

section Anchor

/-- Neither of the start anchors holds at the position. -/
structure LacksStart (env : Env) (flags : RegexFlags) (pos : Nat) : Prop where
  start : anchorMatches .start pos env.chars flags env.searchStart = false
  absoluteStart : anchorMatches .absoluteStart pos env.chars flags env.searchStart = false

mutual

/-- A position at which neither start anchor holds is rejected by a pattern that needs one. -/
theorem rejects_of_requiredStartAnchor (hlacks : LacksStart env flags pos) :
    ∀ node : Node, requiredStartAnchor node = true → Rejects env flags pos node
  | .anchor .start, _ => hlacks.start
  | .anchor .absoluteStart, _ => hlacks.absoluteStart
  | .sequence nodes, h => rejectsFirst_of_requiredStartAnchor hlacks nodes h
  | .group _ inner, h => rejects_of_requiredStartAnchor hlacks inner h
  | .scriptRun inner _, h => rejects_of_requiredStartAnchor hlacks inner h
  | .alternation branches, h => by
    rw [requiredStartAnchor, Bool.and_eq_true] at h
    exact rejectsAll_of_requiredStartAnchor hlacks branches h.2
  | .quantifier inner min _ _ _, h => by
    rw [requiredStartAnchor, Bool.and_eq_true, decide_eq_true_eq] at h
    exact ⟨h.1, rejects_of_requiredStartAnchor hlacks inner h.2⟩

theorem rejectsFirst_of_requiredStartAnchor (hlacks : LacksStart env flags pos) :
    ∀ nodes : List Node, requiredStartAnchorSeq nodes = true → RejectsFirst env flags pos nodes
  | node :: nodes, h => by
    have hnode (hfirst : requiredStartAnchor node = true) :
        RejectsFirst env flags pos (node :: nodes) :=
      .inl (rejects_of_requiredStartAnchor hlacks node hfirst)
    cases node with
    | mark | resetStart | captureEnd =>
      exact .inr ⟨rfl, rejectsFirst_of_requiredStartAnchor hlacks nodes h⟩
    | _ => exact hnode h

theorem rejectsAll_of_requiredStartAnchor (hlacks : LacksStart env flags pos) :
    ∀ nodes : List Node, allRequireStartAnchor nodes = true → RejectsAll env flags pos nodes
  | [], _ => trivial
  | node :: nodes, h => by
    rw [allRequireStartAnchor, Bool.and_eq_true] at h
    exact ⟨rejects_of_requiredStartAnchor hlacks node h.1, rejectsAll_of_requiredStartAnchor hlacks nodes h.2⟩

end

end Anchor

end Required

section Filtered

variable (T : CharTables) (r : CompiledRegex) (subject : List Char)

/-- The starts at which the search attempts no match. -/
def skippedStart (start : Nat) : Bool :=
  (r.anchoredStart && 0 < start) || !startsWithLiteral T r subject start

/-- At every later start a literal or an anchor that the pattern has to pass first does not hold in
the flags of the match. -/
def CompiledRegex.AnchorsHold : Prop :=
  r.anchoredStart = true → ∀ start, 0 < start → start ≤ subject.length →
    Rejects (captureEnv T r subject 0) r.flags start r.ast

/-- The search that attempts a match at every start. -/
def everyStartLoop (fuel : Nat) : List Nat → Nat → List (SubroutineTarget × Nat) → MatchBudget →
    Option (Except MatchLimitError (Option Captures) × MatchBudget)
  | [], _, _, budget => some (.ok none, budget)
  | start :: starts, nextAllowedStart, calls, budget =>
    if start < nextAllowedStart then everyStartLoop fuel starts nextAllowedStart calls budget
    else if r.flags.anchored && 0 < start then some (.ok none, budget)
    else
      match matchSeqFrom (captureEnv T r subject 0) fuel r.ast [] start
          ⟨freshState r (r.numGroups + 1) calls, budget⟩ with
      | none => none
      | some (some final, ctx) =>
        some (.ok (some
          ⟨publishOverallMatch ctx.state.groups (byteOffsetOf subject start)
            (byteOffsetOf subject final), ctx.state.mark⟩), ctx.budget)
      | some (none, ctx) =>
        match ctx.budget.error with
        | some e => some (.error e, ctx.budget)
        | none =>
          match nextAttemptAfterControl ctx.state.control start with
          | none => some (.ok none, ctx.budget)
          | some next => everyStartLoop fuel starts next ctx.state.activeCalls ctx.budget

def everyStartRun (fuel : Nat) (limits : MatchLimits) :
    Option (Except MatchLimitError (Option Captures) × MatchBudget) :=
  everyStartLoop T r subject fuel (List.range (subject.length + 1)) 0 []
    (MatchBudget.new (r.effectiveLimits limits))

variable {T r subject}

/-- Without the multiline option no start anchor holds after the first position. -/
theorem CompiledRegex.AnchorsHold.of_multiline (h : r.flags.multiline = false) :
    r.AnchorsHold T subject := by
  intro hanchored start hstart _
  have hzero : (start == 0) = false := by simpa using Nat.pos_iff_ne_zero.mp hstart
  rw [anchoredStart, Bool.and_eq_true] at hanchored
  refine rejects_of_requiredStartAnchor ⟨?_, ?_⟩ r.ast hanchored.2
  · simp only [anchorMatches, h, Bool.false_eq_true, if_false, hzero]
  · exact hzero

theorem rejects_of_skippedStart (hr : r.AnchorsHold T subject) (hstart : start ≤ subject.length)
    (hskip : skippedStart T r subject start = true) :
    Rejects (captureEnv T r subject 0) r.flags start r.ast := by
  rw [skippedStart, Bool.or_eq_true, Bool.and_eq_true, decide_eq_true_eq] at hskip
  rcases hskip with ⟨hanchored, hpos⟩ | hliteral
  · exact hr hanchored start hpos hstart
  · unfold startsWithLiteral at hliteral
    split at hliteral
    · rename_i literal hrequired
      rw [Bool.not_eq_true'] at hliteral
      have hlacks : LacksLiteral (captureEnv T r subject 0) r.flags start literal := hliteral
      exact rejects_of_requiredStartLiteral hlacks r.ast hrequired
    · cases hliteral

/-- An attempt at a skipped start fails, without a control and within its budget. -/
theorem attempt_skipped (hr : r.AnchorsHold T subject) (hstart : start ≤ subject.length)
    (hskip : skippedStart T r subject start = true)
    (h : matchSeqFrom (captureEnv T r subject 0) fuel r.ast [] start
      ⟨freshState r (r.numGroups + 1) calls, budget⟩ = some (result, ctx)) :
    result = none ∧ ctx.state.control = none ∧ ctx.state.activeCalls = calls ∧
      (ctx.budget.error = none → ctx.budget.LE budget) := by
  have hrejects := rejects_of_skippedStart hr hstart hskip
  obtain ⟨hnone, hcalm⟩ := (engine_isRejecting (captureEnv T r subject 0) r.flags fuel).rejects
    hstart (.inl hrejects) _ ⟨rfl, rfl⟩ _ _ h
  obtain ⟨hkept, -⟩ := (engine_isConfined (captureEnv T r subject 0) fuel).matchSeqFrom r.ast []
    hstart _ _ _ h
  exact ⟨hnone, hcalm.1, hkept.calls, hkept.budget⟩

/-- The search over every start goes on behind a skipped start with what the attempt left. -/
theorem everyStartLoop_cons_skipped (hr : r.AnchorsHold T subject)
    (hstart : start ≤ subject.length) (hskip : skippedStart T r subject start = true)
    (hearly : ¬start < allowed) (hanchored : ¬(r.flags.anchored && decide (0 < start)) = true)
    (h : everyStartLoop T r subject fuel (start :: starts) allowed calls budget =
      some (result, budget'))
    (herr : budget'.error = none) :
    ∃ left : MatchBudget, left.LE budget ∧
      everyStartLoop T r subject fuel starts (start + 1) calls left = some (result, budget') := by
  rw [everyStartLoop, if_neg hearly, if_neg hanchored] at h
  split at h
  · cases h
  · rename_i final ctx hrun
    cases (attempt_skipped hr hstart hskip hrun).1
  · rename_i ctx hrun
    obtain ⟨-, hcontrol, hcalls, hspent⟩ := attempt_skipped hr hstart hskip hrun
    split at h
    · rename_i e he
      cases h
      rw [he] at herr
      cases herr
    · rename_i he
      rw [hcontrol, hcalls] at h
      exact ⟨ctx.budget, hspent he, h⟩

/-- A search over skipped starts only finds nothing. -/
theorem everyStartLoop_skipped (hr : r.AnchorsHold T subject)
    (hstarts : ∀ start ∈ starts, start ≤ subject.length ∧ skippedStart T r subject start = true)
    (h : everyStartLoop T r subject fuel starts allowed calls budget = some (result, budget'))
    (herr : budget'.error = none) : result = .ok none := by
  induction starts generalizing allowed calls budget with
  | nil =>
    cases h
    rfl
  | cons start starts ih =>
    obtain ⟨⟨hstart, hskip⟩, hothers⟩ := List.forall_mem_cons.mp hstarts
    by_cases hearly : start < allowed
    · rw [everyStartLoop, if_pos hearly] at h
      exact ih hothers h
    by_cases hanchored : (r.flags.anchored && decide (0 < start)) = true
    · rw [everyStartLoop, if_neg hearly, if_pos hanchored] at h
      cases h
      rfl
    obtain ⟨left, -, hrest⟩ :=
      everyStartLoop_cons_skipped hr hstart hskip hearly hanchored h herr
    exact ih hothers hrest

/-- Whatever a search over every start finds within its limits, the filtered search finds. -/
theorem capturesLoop_of_everyStartLoop (hr : r.AnchorsHold T subject)
    (hstarts : ∀ start ∈ starts, start ≤ subject.length) (hsorted : starts.Pairwise (· < ·))
    (hallowed : ∀ start ∈ starts, start < allowed ↔ start < allowed') (hle : small.LE big)
    (h : everyStartLoop T r subject fuel starts allowed calls small = some (result, small'))
    (herr : small'.error = none) :
    ∃ big', capturesLoop T r subject fuel starts allowed' calls big = some (result, big') := by
  induction starts generalizing allowed allowed' calls small big with
  | nil =>
    cases h
    exact ⟨big, rfl⟩
  | cons start starts ih =>
    obtain ⟨hstart, hothers⟩ := List.forall_mem_cons.mp hstarts
    obtain ⟨hhere, hallowedRest⟩ := List.forall_mem_cons.mp hallowed
    obtain ⟨hlater, hsortedRest⟩ := List.pairwise_cons.mp hsorted
    rw [capturesLoop]
    by_cases hearly : start < allowed
    · rw [everyStartLoop, if_pos hearly] at h
      rw [if_pos (hhere.mp hearly)]
      exact ih hothers hsortedRest hallowedRest hle h
    rw [if_neg fun hlt => hearly (hhere.mpr hlt)]
    by_cases hanchored : (r.flags.anchored && decide (0 < start)) = true
    · rw [everyStartLoop, if_neg hearly, if_pos hanchored] at h
      cases h
      rw [Bool.and_eq_true] at hanchored
      rw [hanchored.1, hanchored.2]
      exact ⟨big, rfl⟩
    by_cases hfirst : (r.anchoredStart && decide (0 < start)) = true
    · have hskipped : ∀ s ∈ start :: starts,
          s ≤ subject.length ∧ skippedStart T r subject s = true := by
        rw [Bool.and_eq_true, decide_eq_true_eq] at hfirst
        intro s hs
        have hpos : 0 < s := by
          rcases List.mem_cons.mp hs with rfl | hs
          · exact hfirst.2
          · exact Nat.lt_trans hfirst.2 (hlater s hs)
        exact ⟨hstarts s hs, by simp [skippedStart, hfirst.1, hpos]⟩
      rw [everyStartLoop_skipped hr hskipped h herr]
      rw [Bool.and_eq_true] at hfirst
      rw [hfirst.1, hfirst.2, Bool.or_true]
      exact ⟨big, rfl⟩
    have hattempt :
        ¬((r.flags.anchored || r.anchoredStart) && decide (0 < start)) = true := by
      rw [Bool.and_or_distrib_right, Bool.or_eq_true]
      exact not_or.mpr ⟨hanchored, hfirst⟩
    rw [if_neg hattempt]
    by_cases hliteral : startsWithLiteral T r subject start = true
    · rw [everyStartLoop, if_neg hearly, if_neg hanchored] at h
      rw [if_neg (by rw [hliteral]; exact Bool.false_ne_true)]
      split at h
      · cases h
      · rename_i final ctx hrun
        cases h
        obtain ⟨big', hbig, -⟩ := matchSeqFrom_larger hle (Nat.le_refl fuel) hrun herr
        rw [hbig]
        exact ⟨big', rfl⟩
      · rename_i ctx hrun
        split at h
        · rename_i e he
          cases h
          rw [he] at herr
          cases herr
        · rename_i he
          obtain ⟨big', hbig, hle'⟩ := matchSeqFrom_larger hle (Nat.le_refl fuel) hrun he
          simp only [hbig, hle'.error']
          cases hnext : nextAttemptAfterControl ctx.state.control start with
          | none =>
            rw [hnext] at h
            cases h
            exact ⟨big', rfl⟩
          | some next =>
            rw [hnext] at h
            exact ih hothers hsortedRest (fun _ _ => Iff.rfl) hle' h
    · have hskip : skippedStart T r subject start = true := by
        rw [skippedStart, Bool.eq_false_of_not_eq_true hliteral, Bool.not_false, Bool.or_true]
      obtain ⟨left, hleft, hrest⟩ :=
        everyStartLoop_cons_skipped hr hstart hskip hearly hanchored h herr
      rw [if_pos (by rw [Bool.eq_false_of_not_eq_true hliteral]; rfl)]
      refine ih hothers hsortedRest (fun s hs => ?_) (hleft.trans hle) hrest
      have hmore := hlater s hs
      have hsame := hallowedRest s hs
      omega

end Filtered

/-- In a pattern whose start anchors hold, a skipped start admits no match under any budget, and the
search finds what a search over every start finds within its limits. -/
theorem startFilters_keep_first_match (T : CharTables) (r : CompiledRegex) (subject : List Char)
    (hr : r.AnchorsHold T subject) :
    (∀ start, start ≤ subject.length → skippedStart T r subject start = true →
      ∀ fuel calls budget final ctx,
        matchSeqFrom (captureEnv T r subject 0) fuel r.ast [] start
          ⟨freshState r (r.numGroups + 1) calls, budget⟩ ≠ some (some final, ctx)) ∧
      ∀ fuel limits result budget,
        everyStartRun T r subject fuel limits = some (result, budget) → budget.error = none →
          ∃ budget', capturesRun T r subject fuel limits = some (result, budget') := by
  refine ⟨fun start hstart hskip fuel calls budget final ctx hrun => ?_,
    fun fuel limits result budget h herr => ?_⟩
  · cases (attempt_skipped hr hstart hskip hrun).1
  · refine capturesLoop_of_everyStartLoop hr (fun start hmem => ?_) List.pairwise_lt_range
      (fun _ _ => Iff.rfl) (MatchBudget.LE.refl rfl) h herr
    rw [List.mem_range] at hmem
    omega

section Examples

/-- The pattern `^a`. -/
def anchoredLetter : CompiledRegex :=
  plainRegex (.sequence [.anchor .start, .literal 'a'])

theorem anchoredLetter_keeps_first_match :
    skippedStart plainTables anchoredLetter ['\n', 'a'] 1 = true ∧
      ∀ fuel calls budget final ctx,
        matchSeqFrom (captureEnv plainTables anchoredLetter ['\n', 'a'] 0) fuel anchoredLetter.ast []
          1 ⟨freshState anchoredLetter 1 calls, budget⟩ ≠ some (some final, ctx) :=
  ⟨by decide +kernel, (startFilters_keep_first_match plainTables anchoredLetter ['\n', 'a']
    (.of_multiline rfl)).1 1 (by decide) (by decide +kernel)⟩

/-- The pattern `^a(?m)`: the option at its end becomes an option of the whole match. -/
def multilineAtEnd : CompiledRegex :=
  { plainRegex (.sequence [.anchor .start, .literal 'a', .sequence []]) with
    flags := { RegexFlags.default with multiline := true } }

def plainLimits : MatchLimits :=
  ⟨.unlimited, .unlimited, .unlimited, false⟩

/-- On a second line the pattern matches, but its search stops before. -/
theorem startFilters_miss_match :
    skippedStart plainTables multilineAtEnd ['\n', 'a'] 1 = true ∧
      ((matchSeqFrom (captureEnv plainTables multilineAtEnd ['\n', 'a'] 0) 10 multilineAtEnd.ast []
        1 ⟨freshState multilineAtEnd 1 [], MatchBudget.new plainLimits⟩).map Prod.fst =
          some (some 2)) ∧
      ((everyStartRun plainTables multilineAtEnd ['\n', 'a'] 10 plainLimits).map Prod.fst =
        some (.ok (some ⟨[some ⟨1, 2⟩], none⟩))) ∧
      (capturesRun plainTables multilineAtEnd ['\n', 'a'] 10 plainLimits).map Prod.fst =
        some (.ok none) := by
  decide +kernel

end Examples

end Rphp.Regex
