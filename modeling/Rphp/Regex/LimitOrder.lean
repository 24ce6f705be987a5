import Rphp.Lib.Outcome
import Rphp.Regex.Relational
import Rphp.Regex.Search

set_option autoImplicit true

namespace Rphp.Regex

open Rphp.Lib

def Allowance.LE : Allowance → Allowance → Prop
  | _, .unlimited => True
  | .finite n, .finite m => n ≤ m
  | .unlimited, .finite _ => False

theorem Allowance.LE.covers {a a' : Allowance} (h : a.LE a') (hc : a.covers n = true) :
    a'.covers n = true := by
  cases a <;> cases a' <;> simp_all [LE, Allowance.covers]
  omega

theorem Allowance.LE.spend {a a' : Allowance} (h : a.LE a') (hs : a.spend = some b) :
    ∃ b', a'.spend = some b' ∧ b.LE b' := by
  cases a' with
  | unlimited => exact ⟨.unlimited, rfl, trivial⟩
  | finite m =>
    cases a with
    | unlimited => exact h.elim
    | finite n =>
      cases n with
      | zero => simp [Allowance.spend] at hs
      | succ n =>
        obtain rfl : Allowance.finite n = b := by simpa [Allowance.spend] using hs
        have hm : n + 1 ≤ m := h
        obtain ⟨m, rfl⟩ : ∃ k, m = k + 1 := ⟨m - 1, by omega⟩
        exact ⟨.finite m, rfl, Nat.le_of_succ_le_succ hm⟩

theorem Allowance.LE.clamp {a a' : Allowance} (h : a.LE a') (limit : Option Nat) :
    (clampAllowance limit a).LE (clampAllowance limit a') := by
  cases limit with
  | none => exact h
  | some n =>
    cases a <;> cases a' <;> simp_all [LE, clampAllowance, Allowance.min]

/-- Every limit is at least as large; running without the compiler's stack is the larger
side of that switch. -/
structure MatchLimits.LE (L L' : MatchLimits) : Prop where
  backtrack : L.backtrack.LE L'.backtrack
  recursion : L.recursion.LE L'.recursion
  heapFrames : L.heapFrames.LE L'.heapFrames
  jit : L'.jit = true → L.jit = true

/-- A budget that has not failed, and another one in the same place with at least as much
left. -/
structure MatchBudget.LE (b b' : MatchBudget) : Prop where
  error : b.error = none
  error' : b'.error = none
  depth : b.recursionDepth = b'.recursionDepth
  backtracks : b.backtracksRemaining.LE b'.backtracksRemaining
  recursion : b.recursionLimit.LE b'.recursionLimit
  heapFrames : b.heapFramesRemaining.LE b'.heapFramesRemaining
  jit : b'.jit = true → b.jit = true ∧ b.jitStepsRemaining.LE b'.jitStepsRemaining

theorem MatchLimits.LE.effective {L L' : MatchLimits} (h : L.LE L') (r : CompiledRegex) :
    (r.effectiveLimits L).LE (r.effectiveLimits L') :=
  ⟨h.backtrack.clamp _, h.recursion.clamp _, h.heapFrames.clamp _, h.jit⟩

theorem MatchLimits.LE.budget {L L' : MatchLimits} (h : L.LE L') :
    (MatchBudget.new L).LE (MatchBudget.new L') := by
  refine ⟨rfl, rfl, rfl, h.backtrack, h.recursion, h.heapFrames, fun hj => ?_⟩
  have hj' : L'.jit = true := hj
  refine ⟨h.jit hj', ?_⟩
  simp [MatchBudget.new, h.jit hj', hj', Allowance.LE]

/-- A failed budget stays failed. -/
def KeepsError (m : Matcher α) : Prop :=
  Triple (fun ctx => ctx.budget.error ≠ none) m fun _ ctx => ctx.budget.error ≠ none

/-- Two contexts with the same registers and ordered budgets. -/
def MatchCtx.LE (ctx ctx' : MatchCtx) : Prop :=
  ctx.state = ctx'.state ∧ ctx.budget.LE ctx'.budget

/-- A run that ends without a limit error ends the same from any larger budget. -/
def LimitMonotone (m m' : Matcher α) : Prop :=
  KeepsError m ∧ ∀ ctx big a ctx', m ctx = some (a, ctx') → ctx'.budget.error = none →
    ctx.LE big → ∃ big', m' big = some (a, big') ∧ ctx'.LE big'

theorem LimitMonotone.bind {m m' : Matcher α} {f f' : α → Matcher β} (hm : LimitMonotone m m')
    (hf : ∀ a, LimitMonotone (f a) (f' a)) : LimitMonotone (m >>= f) (m' >>= f') := by
  refine ⟨Triple.bind hm.1 fun a => (hf a).1, ?_⟩
  intro ctx big b final h herr hle
  obtain ⟨a, mid, hmid, hfinal⟩ := bind_eq_some.mp h
  have hmiderr : mid.budget.error = none := by
    by_contra hne
    exact (hf a).1 mid hne b final hfinal herr
  obtain ⟨big₁, h₁, hle₁⟩ := hm.2 ctx big a mid hmid hmiderr hle
  obtain ⟨big₂, h₂, hle₂⟩ := (hf a).2 mid big₁ b final hfinal herr hle₁
  exact ⟨big₂, bind_eq_some.mpr ⟨a, big₁, h₁, h₂⟩, hle₂⟩

/-- A budget operation that keeps a failure, and answers the same from a larger budget unless
it fails. -/
theorem LimitMonotone.budgeted {op : MatchBudget → α × MatchBudget}
    (hkeep : ∀ b, b.error ≠ none → (op b).2.error ≠ none)
    (hop : ∀ b b', b.LE b' → (op b).2.error = none →
      (op b).1 = (op b').1 ∧ (op b).2.LE (op b').2) :
    LimitMonotone (budgeted op) (budgeted op) := by
  constructor
  · rintro ctx hne _ _ ⟨⟩
    exact hkeep _ hne
  · rintro ctx big _ _ ⟨⟩ herr ⟨hs, hb⟩
    obtain ⟨hv, hb'⟩ := hop _ _ hb herr
    exact ⟨{ big with budget := (op big.budget).2 }, by simp only [Regex.budgeted, hv], hs, hb'⟩

theorem LimitMonotone.update (f : MatchState → MatchState) :
    LimitMonotone (update f) (update f) := by
  constructor
  · rintro ctx hne _ _ ⟨⟩
    exact hne
  · rintro ctx big _ _ ⟨⟩ - ⟨hs, hb⟩
    exact ⟨_, rfl, congrArg f hs, hb⟩

namespace MatchBudget

variable {b b' : MatchBudget}

theorem LE.enterRecursion (h : b.LE b') (herr : b.enterRecursion.2.error = none) :
    b.enterRecursion.1 = b'.enterRecursion.1 ∧ b.enterRecursion.2.LE b'.enterRecursion.2 := by
  have he := h.error
  have he' := h.error'
  cases hc : b.recursionLimit.covers (b.recursionDepth + 1) with
  | false => simp [MatchBudget.enterRecursion, he, hc, setError] at herr
  | true =>
    have hc' : b'.recursionLimit.covers (b'.recursionDepth + 1) = true :=
      h.depth ▸ h.recursion.covers hc
    simp only [MatchBudget.enterRecursion, he, he', hc, hc', Option.isSome_none,
      Bool.false_eq_true, if_false, if_true, true_and]
    exact { h with error := rfl, error' := rfl, depth := congrArg (· + 1) h.depth }

theorem LE.retain (h : b.LE b') (herr : b.retainQuantifierContinuation.2.error = none) :
    b.retainQuantifierContinuation.1 = b'.retainQuantifierContinuation.1 ∧
      b.retainQuantifierContinuation.2.LE b'.retainQuantifierContinuation.2 := by
  have he := h.error
  have he' := h.error'
  cases hf : b.heapFramesRemaining.spend with
  | none => simp [retainQuantifierContinuation, he, hf, setError] at herr
  | some frames =>
    obtain ⟨frames', hf', hle⟩ := h.heapFrames.spend hf
    cases hj' : b'.jit with
    | false =>
      cases hj : b.jit with
      | false =>
        simp only [retainQuantifierContinuation, he, he', hf, hf', hj, hj', Option.isSome_none,
          Bool.false_eq_true, if_false, true_and]
        exact { h with
          error := rfl
          error' := rfl
          heapFrames := hle
          jit := fun hb => absurd hb Bool.false_ne_true }
      | true =>
        cases hs : b.jitStepsRemaining.spend with
        | none => simp [retainQuantifierContinuation, he, hf, hj, hs] at herr
        | some steps =>
          simp only [retainQuantifierContinuation, he, he', hf, hf', hj, hj', hs,
            Option.isSome_none, Bool.false_eq_true, if_false, if_true, true_and]
          exact { h with
            error := rfl
            error' := rfl
            heapFrames := hle
            jit := fun hb => absurd hb Bool.false_ne_true }
    | true =>
      obtain ⟨hj, hsteps⟩ := h.jit hj'
      cases hs : b.jitStepsRemaining.spend with
      | none => simp [retainQuantifierContinuation, he, hf, hj, hs] at herr
      | some steps =>
        obtain ⟨steps', hs', hsle⟩ := hsteps.spend hs
        simp only [retainQuantifierContinuation, he, he', hf, hf', hj, hj', hs, hs',
          Option.isSome_none, Bool.false_eq_true, if_false, if_true, true_and]
        exact { h with
          error := rfl
          error' := rfl
          heapFrames := hle
          jit := fun _ => ⟨rfl, hsle⟩ }

theorem LE.consume (h : b.LE b') (herr : b.consumeBacktrack.2.error = none) :
    b.consumeBacktrack.1 = b'.consumeBacktrack.1 ∧
      b.consumeBacktrack.2.LE b'.consumeBacktrack.2 := by
  have he := h.error
  have he' := h.error'
  cases hs : b.backtracksRemaining.spend with
  | none => simp [consumeBacktrack, he, hs, setError] at herr
  | some left =>
    obtain ⟨left', hs', hle⟩ := h.backtracks.spend hs
    simp only [consumeBacktrack, he, he', hs, hs', Option.isSome_none, Bool.false_eq_true,
      if_false, true_and]
    exact { h with error := rfl, error' := rfl, backtracks := hle }

theorem LE.reject (h : b.LE b') (n : Nat)
    (herr : (b.rejectImpossibleSearchIfCostExceeds n).2.error = none) :
    (b.rejectImpossibleSearchIfCostExceeds n).1 = (b'.rejectImpossibleSearchIfCostExceeds n).1 ∧
      (b.rejectImpossibleSearchIfCostExceeds n).2.LE
        (b'.rejectImpossibleSearchIfCostExceeds n).2 := by
  cases hc : b.backtracksRemaining.covers n with
  | false => simp [rejectImpossibleSearchIfCostExceeds, hc, setError] at herr
  | true =>
    have hc' := h.backtracks.covers hc
    simp only [rejectImpossibleSearchIfCostExceeds, hc, hc', if_true, true_and]
    exact h

end MatchBudget

/-- Every step of the engine is monotone in the limits. -/
def limitMonotone (env : Env) : MatcherRelation env where
  ok _ := True
  children _ _ _ := trivial
  requantified _ _ _ := trivial
  captureEnd _ _ := trivial
  captureRestore _ := trivial
  resolved _ _ := trivial
  rel := LimitMonotone
  pure a := ⟨Triple.pure fun _ h => h, by
    rintro ctx big _ _ ⟨⟩ - hle
    exact ⟨big, rfl, hle⟩⟩
  bind hm hf := hm.bind hf
  exhausted m := ⟨by rintro _ _ _ _ ⟨⟩, by rintro _ _ _ _ ⟨⟩⟩
  view := ⟨by
    rintro ctx hne _ _ ⟨⟩
    exact hne, by
    rintro ctx big _ _ ⟨⟩ - hle
    exact ⟨big, by simp only [view, hle.1], hle⟩⟩
  update {f} _ := LimitMonotone.update f
  localFlags _ _ _ := LimitMonotone.update _
  control _ _ _ := LimitMonotone.update _
  hasError := LimitMonotone.budgeted (fun _ h => h) fun b b' h herr => by
    simp [MatchBudget.hasError, h.error, h.error', h]
  enterRecursion := LimitMonotone.budgeted
    (fun b hb => by simp [MatchBudget.enterRecursion, Option.isSome_iff_ne_none, hb])
    fun b b' h => h.enterRecursion
  leaveRecursion := LimitMonotone.budgeted (fun _ h => h) fun b b' h _ =>
    ⟨rfl, { h with depth := congrArg (· - 1) h.depth }⟩
  retain := LimitMonotone.budgeted
    (fun b hb => by simp [MatchBudget.retainQuantifierContinuation, Option.isSome_iff_ne_none, hb])
    fun b b' h => h.retain
  consume := LimitMonotone.budgeted
    (fun b hb => by simp [MatchBudget.consumeBacktrack, Option.isSome_iff_ne_none, hb])
    fun b b' h => h.consume
  reject n := LimitMonotone.budgeted
    (fun b hb => by
      unfold MatchBudget.rejectImpossibleSearchIfCostExceeds
      split
      · exact hb
      · simp [MatchBudget.setError])
    fun b b' h => h.reject n

/-- An attempt that ends without a limit error is the same with more fuel and larger limits. -/
theorem matchSeqFrom_limitMonotone (env : Env) (hfuel : fuel ≤ fuel') (node : Node)
    (rest : List Node) (pos : Nat) :
    LimitMonotone (matchSeqFrom env fuel node rest pos) (matchSeqFrom env fuel' node rest pos) :=
  ((limitMonotone env).engines hfuel).matchSeqFrom trivial (fun _ _ => trivial) pos

end Rphp.Regex
