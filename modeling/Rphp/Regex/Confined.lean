import Rphp.Regex.LimitOrder

set_option autoImplicit true

namespace Rphp.Regex

open Rphp.Lib

theorem Allowance.LE.refl (a : Allowance) : a.LE a := by
  cases a with
  | finite n => exact Nat.le_refl n
  | unlimited => trivial

theorem Allowance.LE.trans {a b c : Allowance} (h : a.LE b) (h' : b.LE c) : a.LE c := by
  cases a <;> cases b <;> cases c <;> simp_all [Allowance.LE]
  exact Nat.le_trans h h'

theorem Allowance.le_of_spend {a b : Allowance} (h : a.spend = some b) : b.LE a := by
  cases a with
  | unlimited => trivial
  | finite n =>
    cases n with
    | zero => cases h
    | succ n =>
      cases h
      exact Nat.le_succ n

namespace MatchBudget

theorem LE.refl {b : MatchBudget} (h : b.error = none) : b.LE b :=
  ⟨h, h, rfl, .refl _, .refl _, .refl _, fun hjit => ⟨hjit, .refl _⟩⟩

theorem LE.trans {b c d : MatchBudget} (h : b.LE c) (h' : c.LE d) : b.LE d where
  error := h.error
  error' := h'.error'
  depth := h.depth.trans h'.depth
  backtracks := h.backtracks.trans h'.backtracks
  recursion := h.recursion.trans h'.recursion
  heapFrames := h.heapFrames.trans h'.heapFrames
  jit hjit :=
    have hmid := h'.jit hjit
    have hlow := h.jit hmid.1
    ⟨hlow.1, hlow.2.trans hmid.2⟩

/-- An operation that only takes from the budget, unless it fails. -/
class Spending (op : MatchBudget → α × MatchBudget) : Prop where
  spent : ∀ b, (op b).2.error = none → (op b).2.LE b

instance : Spending hasError := ⟨fun _ h => LE.refl h⟩

instance (n : Nat) : Spending (rejectImpossibleSearchIfCostExceeds n) where
  spent b := by
    unfold rejectImpossibleSearchIfCostExceeds
    split
    · exact LE.refl
    · nofun

instance : Spending consumeBacktrack where
  spent b := by
    unfold consumeBacktrack
    split
    · exact LE.refl
    · split
      · nofun
      · rename_i left hleft
        exact fun h => ⟨h, h, rfl, Allowance.le_of_spend hleft, .refl _, .refl _,
          fun hjit => ⟨hjit, .refl _⟩⟩

instance : Spending retainQuantifierContinuation where
  spent b := by
    unfold retainQuantifierContinuation
    split
    · exact LE.refl
    · split
      · nofun
      · rename_i frames hframes
        split
        · split
          · nofun
          · rename_i steps hsteps
            exact fun h => ⟨h, h, rfl, .refl _, .refl _, Allowance.le_of_spend hframes,
              fun hjit => ⟨hjit, Allowance.le_of_spend hsteps⟩⟩
        · exact fun h => ⟨h, h, rfl, .refl _, .refl _, Allowance.le_of_spend hframes,
            fun hjit => ⟨hjit, .refl _⟩⟩

/-- A recursion that is refused has failed. -/
theorem refused_of_error {b : MatchBudget} (h : b.enterRecursion.1 = false) :
    b.enterRecursion.2.error = none → b.enterRecursion.2.LE b := by
  intro herr
  unfold enterRecursion at h herr
  split at h
  · simp_all
  · split at h
    · cases h
    · simp_all [setError]

/-- What is spent inside a recursion is spent, and its depth is left again. -/
theorem LE.inside {b c : MatchBudget} (h : b.enterRecursion.1 = true)
    (hle : c.LE b.enterRecursion.2) : (c.leaveRecursion.2).LE b := by
  unfold MatchBudget.enterRecursion at h hle
  split at h
  · cases h
  · rename_i herr
    split at h
    · rename_i hcovers
      rw [if_neg herr, if_pos hcovers] at hle
      have hdepth : c.recursionDepth = b.recursionDepth + 1 := hle.depth
      have hleft : c.recursionDepth - 1 = b.recursionDepth := by rw [hdepth]; rfl
      exact ⟨hle.error, hle.error', hleft, hle.backtracks, hle.recursion, hle.heapFrames, hle.jit⟩
    · cases h

end MatchBudget

/-- The flags and the calls are the same, and a budget that has not failed is not larger. -/
structure MatchCtx.Kept (ctx ctx' : MatchCtx) : Prop where
  flags : ctx'.state.flags = ctx.state.flags
  calls : ctx'.state.activeCalls = ctx.state.activeCalls
  budget : ctx'.budget.error = none → ctx'.budget.LE ctx.budget

theorem MatchCtx.Kept.refl (ctx : MatchCtx) : ctx.Kept ctx :=
  ⟨rfl, rfl, .refl⟩

theorem MatchCtx.Kept.trans {ctx mid ctx' : MatchCtx} (h : ctx.Kept mid) (h' : mid.Kept ctx') :
    ctx.Kept ctx' where
  flags := h'.flags.trans h.flags
  calls := h'.calls.trans h.calls
  budget herr :=
    have hlast := h'.budget herr
    hlast.trans (h.budget hlast.error')

/-- Every finished run gives such a value, in the flags and the calls it started with. -/
def Confined (m : Matcher α) (Q : α → Prop) : Prop :=
  ∀ ctx a ctx', m ctx = some (a, ctx') → ctx.Kept ctx' ∧ Q a

/-- A position of a range, if there is one. -/
def Between (lo hi : Nat) (result : Option Nat) : Prop :=
  ∀ final ∈ result, lo ≤ final ∧ final ≤ hi

def EndsBetween (lo hi : Nat) (states : List BacktrackState) : Prop :=
  ∀ state ∈ states, lo ≤ state.end ∧ state.end ≤ hi

theorem between_none : Between lo hi none := nofun

theorem between_some (hlo : lo ≤ final) (hhi : final ≤ hi) : Between lo hi (some final) := by
  rintro _ ⟨⟩
  exact ⟨hlo, hhi⟩

theorem Between.of_some (h : Between lo hi (some final)) : lo ≤ final ∧ final ≤ hi :=
  h final rfl

theorem Between.mono (h : Between lo hi result) (hlo : lo' ≤ lo) : Between lo' hi result :=
  fun final hmem => ⟨Nat.le_trans hlo (h final hmem).1, (h final hmem).2⟩

theorem endsBetween_nil : EndsBetween lo hi [] := List.forall_mem_nil _

theorem EndsBetween.mono (h : EndsBetween lo hi states) (hlo : lo' ≤ lo) :
    EndsBetween lo' hi states :=
  fun state hmem => ⟨Nat.le_trans hlo (h state hmem).1, (h state hmem).2⟩

theorem EndsBetween.append (h : EndsBetween lo hi states) (h' : EndsBetween lo hi states') :
    EndsBetween lo hi (states ++ states') :=
  List.forall_mem_append.mpr ⟨h, h'⟩

theorem EndsBetween.sublist (h : EndsBetween lo hi states) (hsub : List.Sublist states' states) :
    EndsBetween lo hi states' :=
  fun state hmem => h state (hsub.subset hmem)

namespace Confined

theorem pure {Q : α → Prop} (h : Q a) : Confined (Pure.pure a) Q := by
  rintro ctx _ _ ⟨⟩
  exact ⟨.refl _, h⟩

theorem bind {m : Matcher α} {f : α → Matcher β} (hm : Confined m P)
    (hf : ∀ a, P a → Confined (f a) Q) : Confined (m >>= f) Q := by
  intro ctx b ctx' h
  obtain ⟨a, mid, hmid, hrest⟩ := bind_eq_some.mp h
  obtain ⟨hkept, hP⟩ := hm ctx a mid hmid
  obtain ⟨hkept', hQ⟩ := hf a hP mid b ctx' hrest
  exact ⟨hkept.trans hkept', hQ⟩

theorem post {m : Matcher α} (h : Confined m P) (hPQ : ∀ a, P a → Q a) : Confined m Q :=
  fun ctx a ctx' hm => ⟨(h ctx a ctx' hm).1, hPQ a (h ctx a ctx' hm).2⟩

theorem ite {c : Prop} [Decidable c] {m m' : Matcher α} (h : c → Confined m Q)
    (h' : ¬c → Confined m' Q) : Confined (if c then m else m') Q := by
  split
  · exact h ‹_›
  · exact h' ‹_›

theorem exhausted {Q : α → Prop} : Confined Regex.exhausted Q := by
  intro ctx a ctx' h
  cases h

theorem view : Confined view fun _ => True := by
  rintro ctx _ _ ⟨⟩
  exact ⟨.refl _, trivial⟩

theorem kept {f : MatchState → MatchState}
    (hf : ∀ s, (f s).flags = s.flags ∧ (f s).activeCalls = s.activeCalls) :
    Confined (update f) fun _ => True := by
  rintro ctx _ _ ⟨⟩
  exact ⟨⟨(hf ctx.state).1, (hf ctx.state).2, .refl⟩, trivial⟩

/-- A kept update before another step. -/
theorem keptThen {f : MatchState → MatchState} {m : Matcher α}
    (hf : ∀ s, (f s).flags = s.flags ∧ (f s).activeCalls = s.activeCalls) (hm : Confined m Q) :
    Confined (update f >>= fun _ => m) Q :=
  bind (kept hf) fun _ _ => hm

theorem budgeted (op : MatchBudget → α × MatchBudget) [MatchBudget.Spending op] :
    Confined (budgeted op) fun _ => True := by
  rintro ctx _ _ ⟨⟩
  exact ⟨⟨rfl, rfl, MatchBudget.Spending.spent _⟩, trivial⟩

theorem takeAccepted : Confined takeAccepted fun _ => True :=
  bind view fun _ _ => keptThen (fun _ => ⟨rfl, rfl⟩) (pure trivial)

theorem take (pos : Nat) : Confined (BacktrackState.take pos) fun state => state.end = pos :=
  bind view fun _ _ => keptThen (fun _ => ⟨rfl, rfl⟩) (pure rfl)

theorem install (b : BacktrackState) : Confined b.install fun _ => True :=
  kept fun _ => ⟨rfl, rfl⟩

theorem consumeAlternative (first : Bool) : Confined (consumeAlternative first) fun _ => True :=
  ite (fun _ => pure trivial) fun _ => budgeted _

theorem inRecursion {refused : α} {m : Matcher α} (hrefused : Q refused) (hm : Confined m Q) :
    Confined (inRecursion refused m) Q := by
  intro ctx a ctx' h
  obtain ⟨entered, mid, henter, h⟩ := bind_eq_some.mp h
  cases henter
  cases hallowed : ctx.budget.enterRecursion.1 with
  | false =>
    simp only [hallowed] at h
    cases h
    exact ⟨⟨rfl, rfl, MatchBudget.refused_of_error hallowed⟩, hrefused⟩
  | true =>
    simp only [hallowed] at h
    obtain ⟨b, mid', hrun, h⟩ := bind_eq_some.mp h
    obtain ⟨u, left, hleave, h⟩ := bind_eq_some.mp h
    cases hleave
    cases h
    obtain ⟨hkept, hQ⟩ := hm _ _ _ hrun
    exact ⟨⟨hkept.flags, hkept.calls, fun herr =>
      MatchBudget.LE.inside hallowed (hkept.budget herr)⟩, hQ⟩

theorem closeAccepted {env : Env} (tracked : Option Nat) (startOffset : Nat) (result : Option Nat)
    (control : Option MatchControl) :
    Confined (closeAccepted env tracked startOffset result control) fun _ => True := by
  unfold Regex.closeAccepted
  split
  · split
    · exact kept fun _ => ⟨rfl, rfl⟩
    · exact pure trivial
  · exact pure trivial

theorem restoreCaller (initial : BacktrackState) (control : Option MatchControl)
    (result : Option Nat) : Confined (restoreCaller initial control result) fun _ => True := by
  cases result with
  | none => exact install _
  | some final => exact ite (fun _ => kept fun _ => ⟨rfl, rfl⟩) fun _ => pure trivial

theorem publishMark (n : Option GroupName) : Confined (publishMark n) fun _ => True := by
  cases n with
  | none => exact pure trivial
  | some n =>
    unfold Regex.publishMark
    exact kept fun _ => ⟨rfl, rfl⟩

/-- A step in other flags that the end takes back. -/
theorem withFlags {m : Matcher α} (hm : Confined m P) (flags : LocalMatchFlags)
    {k : α → Matcher β} (hk : ∀ a, P a → Confined (k a) Q) :
    Confined
      (do
        let saved ← Regex.view
        update fun s => { s with flags := s.flags.withLocal flags }
        let result ← m
        update fun s => { s with flags := saved.flags }
        k result) Q := by
  intro ctx b ctx' h
  obtain ⟨saved, mid, hview, h⟩ := bind_eq_some.mp h
  cases hview
  obtain ⟨u, mid₁, hupdate, h⟩ := bind_eq_some.mp h
  cases hupdate
  obtain ⟨a, mid₂, hrun, h⟩ := bind_eq_some.mp h
  obtain ⟨u, mid₃, hupdate, h⟩ := bind_eq_some.mp h
  cases hupdate
  obtain ⟨hkept, hP⟩ := hm _ _ _ hrun
  obtain ⟨hkept', hQ⟩ := hk a hP _ _ _ h
  exact ⟨⟨hkept'.flags, hkept'.calls.trans hkept.calls, fun herr =>
    (hkept'.budget herr).trans (hkept.budget (hkept'.budget herr).error')⟩, hQ⟩

/-- A step inside a call that its end removes again. -/
theorem inCall {m : Matcher α} (hm : Confined m Q) (target : SubroutineTarget) (pos : Nat) :
    Confined
      (do
        pushSubroutineCall target pos
        let a ← m
        popSubroutineCall
        Pure.pure a) Q := by
  intro ctx b ctx' h
  obtain ⟨u, mid, hpush, h⟩ := bind_eq_some.mp h
  cases hpush
  obtain ⟨a, mid₁, hrun, h⟩ := bind_eq_some.mp h
  obtain ⟨u, mid₂, hpop, h⟩ := bind_eq_some.mp h
  cases hpop
  cases h
  obtain ⟨hkept, hQ⟩ := hm _ _ _ hrun
  refine ⟨⟨hkept.flags, ?_, hkept.budget⟩, hQ⟩
  show mid₁.state.activeCalls.tail = ctx.state.activeCalls
  rw [hkept.calls]
  rfl

end Confined

/-- An engine whose results lie between the start and the end of the subject. -/
structure Engine.IsConfined (env : Env) (E : Engine) : Prop where
  matchSeqFrom : ∀ node rest {pos}, pos ≤ env.chars.length →
    Confined (E.matchSeqFrom node rest pos) (Between pos env.chars.length)
  collect : ∀ node {state : BacktrackState}, state.end ≤ env.chars.length →
    Confined (E.collectMatchStatesFrom node state) (EndsBetween state.end env.chars.length)

namespace Engine.IsConfined

section Helpers

variable {env : Env} {E : Engine} (h : E.IsConfined env)

include h

theorem matchRest (rest : List Node) (hpos : pos ≤ env.chars.length) :
    Confined (matchRest E rest pos) (Between pos env.chars.length) := by
  have hhere : Between pos env.chars.length (some pos) := between_some (Nat.le_refl _) hpos
  refine .bind .view fun s _ => .ite (fun _ => .pure hhere) fun _ => ?_
  cases rest with
  | nil => exact .pure hhere
  | cons node rest => exact h.matchSeqFrom node rest hpos

/-- The rest from a later position. -/
theorem matchRestFrom (rest : List Node) (hlo : lo ≤ pos) (hpos : pos ≤ env.chars.length) :
    Confined (Regex.matchRest E rest pos) (Between lo env.chars.length) :=
  (h.matchRest rest hpos).post fun _ hr => hr.mono hlo

/-- The pattern of every backtracking step: the rest, and a repair when it fails. -/
theorem matchRestOrElse (rest : List Node) (hlo : lo ≤ pos) (hpos : pos ≤ env.chars.length)
    {f : Matcher (Option Nat)} (hf : Confined f (Between lo env.chars.length)) :
    Confined
      (do
        match ← Regex.matchRest E rest pos with
        | some final => pure (some final)
        | none => f) (Between lo env.chars.length) := by
  refine .bind (h.matchRestFrom rest hlo hpos) fun result hresult => ?_
  cases result with
  | some final => exact .pure hresult
  | none => exact hf

theorem advanceIf (rest : List Node) (hlo : lo ≤ pos)
    (hpos : ok = true → pos ≤ env.chars.length) :
    Confined (advanceIf E ok rest pos) (Between lo env.chars.length) :=
  .ite (fun hok => h.matchRestFrom rest hlo (hpos hok)) fun _ => .pure between_none

theorem collectMatchStates (node : Node) (hpos : pos ≤ env.chars.length) :
    Confined (collectMatchStates E node pos)
      fun result => EndsBetween pos env.chars.length result.2 := by
  refine .bind (.take pos) fun initial hinitial => ?_
  refine .bind (h.collect node (by rwa [hinitial])) fun states hstates => .pure ?_
  rwa [hinitial] at hstates

omit h in
theorem restored (initial : BacktrackState) :
    Confined (do initial.install; pure none) (Between lo env.chars.length) :=
  .bind (.install _) fun _ _ => .pure between_none

theorem tryCaptureStates (index startOffset : Nat) (rest : List Node) (initial : BacktrackState)
    (hstates : EndsBetween lo env.chars.length states) :
    Confined (tryCaptureStates env E index startOffset rest initial states)
      (Between lo env.chars.length) := by
  induction states with
  | nil => exact restored initial
  | cons state states ih =>
    obtain ⟨⟨hlo, hhi⟩, hrest⟩ := List.forall_mem_cons.mp hstates
    exact .bind (.install _) fun _ _ => .keptThen (fun _ => ⟨rfl, rfl⟩)
      (h.matchRestOrElse rest hlo hhi (ih hrest))

theorem matchSeqFromWithGroup (inner : Node) (rest : List Node) (hpos : pos ≤ env.chars.length)
    (groupIdx : Option Nat) (startOffset : Nat) :
    Confined (matchSeqFromWithGroup env E inner rest pos groupIdx startOffset)
      (Between pos env.chars.length) := by
  cases rest with
  | nil =>
    refine .bind (h.matchSeqFrom inner [] hpos) fun result hresult => ?_
    cases result with
    | none => exact .pure hresult
    | some final =>
      cases groupIdx with
      | none => exact .pure hresult
      | some index => exact .keptThen (fun _ => ⟨rfl, rfl⟩) (.pure hresult)
  | cons node rest =>
    cases groupIdx with
    | none => exact h.matchSeqFrom inner _ hpos
    | some index =>
      refine .ite (fun _ => h.matchSeqFrom inner _ hpos) fun _ =>
        .bind (h.collectMatchStates inner hpos) ?_
      rintro ⟨initial, states⟩ hstates
      exact h.tryCaptureStates index startOffset _ initial hstates

theorem matchGroup (index : Option Nat) (inner : Node) (rest : List Node)
    (hpos : pos ≤ env.chars.length) :
    Confined (matchGroup env E index inner rest pos) (Between pos env.chars.length) :=
  .inRecursion between_none (.bind .view fun _ _ =>
    .bind (h.matchSeqFromWithGroup inner rest hpos _ _) fun _ hresult =>
      .bind .view fun _ _ => .bind (.closeAccepted _ _ _ _) fun _ _ => .pure hresult)

theorem matchCaptureEnd (index start : Nat) (rest : List Node) (hpos : pos ≤ env.chars.length) :
    Confined (matchCaptureEnd env E index start rest pos) (Between pos env.chars.length) :=
  .bind .view fun _ _ => .keptThen (fun _ => ⟨rfl, rfl⟩)
    (h.matchRestOrElse rest (Nat.le_refl _) hpos
      (.keptThen (fun _ => ⟨rfl, rfl⟩) (.pure between_none)))

theorem matchCaptureRestore (groups : List (Option Match)) (rest : List Node)
    (hpos : pos ≤ env.chars.length) :
    Confined (matchCaptureRestore E groups rest pos) (Between pos env.chars.length) :=
  .bind .view fun _ _ => .keptThen (fun _ => ⟨rfl, rfl⟩)
    (h.matchRestOrElse rest (Nat.le_refl _) hpos
      (.keptThen (fun _ => ⟨rfl, rfl⟩) (.pure between_none)))

theorem matchAlternation (rest : List Node) (hpos : pos ≤ env.chars.length) (first : Bool)
    (branches : List Node) :
    Confined (matchAlternation E rest pos first branches) (Between pos env.chars.length) := by
  induction branches generalizing first with
  | nil => exact .pure between_none
  | cons branch branches ih =>
    refine .bind (.consumeAlternative first) fun _ _ => .ite (fun _ => .pure between_none) fun _ =>
      .bind .view fun saved _ => .bind (h.matchSeqFrom branch rest hpos) fun result hresult => ?_
    cases result with
    | some final => exact .pure hresult
    | none =>
      refine .bind .view fun s _ => .ite (fun _ => ?_) fun _ =>
        .ite (fun _ => .pure between_none) fun _ => ?_
      · exact .keptThen (fun _ => ⟨rfl, rfl⟩) (.keptThen (fun _ => ⟨rfl, rfl⟩) (ih false))
      · exact .keptThen (fun _ => ⟨rfl, rfl⟩) (ih false)

theorem tryAssertionStates (rest : List Node) (hpos : pos ≤ env.chars.length) (accepted : Bool)
    {exhaust : Matcher (Option Nat)} (hexhaust : Confined exhaust (Between pos env.chars.length))
    (states : List BacktrackState) :
    Confined (tryAssertionStates E rest pos accepted exhaust states)
      (Between pos env.chars.length) := by
  induction states with
  | nil => exact hexhaust
  | cons state states ih =>
    exact .bind (.install _) fun _ _ => h.matchRestOrElse rest (Nat.le_refl _) hpos
      (.bind .view fun _ _ => .ite (fun _ => .pure between_none) fun _ => ih)

theorem matchNonAtomicLookahead (inner : Node) (rest : List Node) (hpos : pos ≤ env.chars.length) :
    Confined (matchNonAtomicLookahead E inner rest pos) (Between pos env.chars.length) := by
  refine .bind (h.collectMatchStates inner hpos) ?_
  rintro ⟨initial, states⟩ -
  exact .bind .takeAccepted fun accepted _ =>
    h.tryAssertionStates rest hpos accepted (restored initial) states

theorem tryLookbehindStarts (inner : Node) (rest : List Node) (hpos : pos ≤ env.chars.length)
    (original : BacktrackState) (hstarts : ∀ start ∈ starts, start ≤ env.chars.length) :
    Confined (tryLookbehindStarts E inner rest pos original starts)
      (Between pos env.chars.length) := by
  induction starts with
  | nil => exact restored original
  | cons start starts ih =>
    obtain ⟨hstart, hrest⟩ := List.forall_mem_cons.mp hstarts
    exact .bind (h.collect inner hstart) fun _ _ => .bind .takeAccepted fun _ _ =>
      h.tryAssertionStates rest hpos _ (ih hrest) _

theorem matchAtomicLookahead (positive : Bool) (inner : Node) (rest : List Node)
    (hpos : pos ≤ env.chars.length) :
    Confined (matchAtomicLookahead E positive inner rest pos) (Between pos env.chars.length) := by
  refine .bind .view fun saved _ => .bind (h.matchSeqFrom inner [] hpos) fun result _ =>
    .keptThen (fun _ => ⟨rfl, rfl⟩) ?_
  cases positive <;> cases result
  · exact .keptThen (fun _ => ⟨rfl, rfl⟩) (h.matchRest rest hpos)
  · exact .keptThen (fun _ => ⟨rfl, rfl⟩) (.pure between_none)
  · exact .keptThen (fun _ => ⟨rfl, rfl⟩) (.pure between_none)
  · exact h.matchRest rest hpos

theorem matchLookahead (positive atomic : Bool) (inner : Node) (rest : List Node)
    (hpos : pos ≤ env.chars.length) :
    Confined (matchLookahead E positive atomic inner rest pos) (Between pos env.chars.length) :=
  .inRecursion between_none (.ite (fun _ => h.matchNonAtomicLookahead inner rest hpos) fun _ =>
    h.matchAtomicLookahead positive inner rest hpos)

theorem lookbehindFound (inner : Node) (pos : Nat)
    (hstarts : ∀ start ∈ starts, start ≤ env.chars.length) :
    Confined (lookbehindFound E inner pos starts) fun _ => True := by
  induction starts with
  | nil => exact .pure trivial
  | cons start starts ih =>
    obtain ⟨hstart, hrest⟩ := List.forall_mem_cons.mp hstarts
    exact .bind .view fun _ _ => .bind (h.matchSeqFrom inner [] hstart) fun _ _ =>
      .bind .takeAccepted fun _ _ => .ite (fun _ => .pure trivial) fun _ =>
        .keptThen (fun _ => ⟨rfl, rfl⟩) (ih hrest)

omit h in
theorem le_of_mem_lookbehindStarts {inner : Node} (hstart : start ∈ lookbehindStarts inner pos) :
    start ≤ pos := by
  simp only [lookbehindStarts, List.mem_reverse, List.mem_range'_1] at hstart
  omega

omit h in
theorem le_of_mem_startsUpTo (hstart : start ∈ (List.range (pos + 1)).reverse) : start ≤ pos := by
  simp only [List.mem_reverse, List.mem_range] at hstart
  omega

theorem matchLookbehind (positive atomic : Bool) (inner : Node) (rest : List Node)
    (hpos : pos ≤ env.chars.length) :
    Confined (matchLookbehind E positive atomic inner rest pos) (Between pos env.chars.length) := by
  refine .inRecursion between_none (.ite (fun _ => ?_) fun _ => ?_)
  · exact .bind (.take pos) fun original _ => h.tryLookbehindStarts inner rest hpos original
      fun start hstart => Nat.le_trans (le_of_mem_startsUpTo hstart) hpos
  · exact .bind
      (h.lookbehindFound inner pos fun start hstart =>
        Nat.le_trans (le_of_mem_lookbehindStarts hstart) hpos)
      fun _ _ => .ite (fun _ => h.matchRest rest hpos) fun _ => .pure between_none

theorem matchAtomic (inner : Node) (rest : List Node) (hpos : pos ≤ env.chars.length) :
    Confined (matchAtomic E inner rest pos) (Between pos env.chars.length) := by
  refine .inRecursion between_none (.bind (h.matchSeqFrom inner [] hpos) fun result hresult => ?_)
  cases result with
  | some final => exact h.matchRestFrom rest hresult.of_some.1 hresult.of_some.2
  | none => exact .pure between_none

theorem tryScriptRuns (atomic accepted : Bool) (rest : List Node) (initial : BacktrackState)
    (hstates : EndsBetween pos env.chars.length states) :
    Confined (tryScriptRuns env E atomic accepted rest pos initial states)
      (Between pos env.chars.length) := by
  induction states with
  | nil => exact restored initial
  | cons state states ih =>
    obtain ⟨⟨hlo, hhi⟩, hrest⟩ := List.forall_mem_cons.mp hstates
    exact .ite (fun _ => ih hrest) fun _ => .bind (.install _) fun _ _ =>
      h.matchRestOrElse rest hlo hhi
        (.bind .view fun _ _ => .ite (fun _ => .pure between_none) fun _ => ih hrest)

theorem matchScriptRun (inner : Node) (atomic : Bool) (rest : List Node)
    (hpos : pos ≤ env.chars.length) :
    Confined (matchScriptRun env E inner atomic rest pos) (Between pos env.chars.length) := by
  refine .inRecursion between_none (.bind (h.collectMatchStates inner hpos) ?_)
  rintro ⟨initial, states⟩ hstates
  refine .bind .takeAccepted fun accepted _ => h.tryScriptRuns atomic accepted rest initial ?_
  split
  · exact hstates.sublist (List.take_sublist 1 states)
  · exact hstates

theorem matchLocalFlags (flags : LocalMatchFlags) (inner : Node) (rest : List Node)
    (hpos : pos ≤ env.chars.length) :
    Confined (matchLocalFlags E flags inner rest pos) (Between pos env.chars.length) := by
  refine .withFlags (h.matchSeqFrom inner [] hpos) flags fun result hresult => ?_
  cases result with
  | some final => exact h.matchRestFrom rest hresult.of_some.1 hresult.of_some.2
  | none => exact .pure between_none

omit h in
theorem backreferenceMatches_length {flags : RegexFlags} {captured subject : List Char}
    (hmatch : backreferenceMatches env flags captured subject = true) :
    captured.length ≤ subject.length := by
  induction captured generalizing subject with
  | nil => exact Nat.zero_le _
  | cons c captured ih =>
    cases subject with
    | nil => cases hmatch
    | cons d subject =>
      rw [backreferenceMatches, Bool.and_eq_true] at hmatch
      exact Nat.succ_le_succ (ih hmatch.2)

theorem matchBackrefByIndex (n : Nat) (rest : List Node) (hpos : pos ≤ env.chars.length) :
    Confined (matchBackrefByIndex env E n rest pos) (Between pos env.chars.length) := by
  refine .bind .view fun s _ => ?_
  cases (s.groups[n]?).join with
  | none => exact .pure between_none
  | some m =>
    refine h.advanceIf rest (Nat.le_add_right _ _) fun hok => ?_
    have hlength := backreferenceMatches_length hok
    rw [List.length_drop] at hlength
    omega

theorem matchNamedBackreference (n : GroupName) (rest : List Node)
    (hpos : pos ≤ env.chars.length) :
    Confined (matchNamedBackreference env E n rest pos) (Between pos env.chars.length) := by
  refine .bind .view fun s _ => ?_
  cases firstSetNamedGroup env s.groups n with
  | none => exact .pure between_none
  | some index => exact h.matchBackrefByIndex index rest hpos

theorem matchSubroutine (target : SubroutineTarget) (rest : List Node)
    (hpos : pos ≤ env.chars.length) :
    Confined (matchSubroutine env E target rest pos) (Between pos env.chars.length) := by
  have hcall (initial : BacktrackState) :
      Confined (callSubroutine E initial rest pos (resolveSubroutine env target))
        (Between pos env.chars.length) := by
    cases resolveSubroutine env target with
    | none => exact .pure between_none
    | some node => exact h.matchSeqFrom node _ hpos
  have hbody : Confined
      (do
        let initial ← BacktrackState.take pos
        let result ← callSubroutine E initial rest pos (resolveSubroutine env target)
        let t ← view
        restoreCaller initial t.control result
        pure result) (Between pos env.chars.length) :=
    .bind (.take pos) fun initial _ => .bind (hcall initial) fun _ hresult =>
      .bind .view fun _ _ => .bind (.restoreCaller _ _ _) fun _ _ => .pure hresult
  refine .bind .view fun _ _ => .ite (fun _ => .pure between_none) fun _ =>
    .inRecursion between_none ?_
  simpa only [bind_assoc, pure_bind] using hbody.inCall target pos

theorem conditionLookbehind (inner : Node) (pos : Nat) (saved : MatchState)
    (hstarts : ∀ start ∈ starts, start ≤ env.chars.length) :
    Confined (conditionLookbehind E inner pos saved starts) fun _ => True := by
  induction starts with
  | nil => exact .pure trivial
  | cons start starts ih =>
    obtain ⟨hstart, hrest⟩ := List.forall_mem_cons.mp hstarts
    exact .keptThen (fun _ => ⟨rfl, rfl⟩) (.bind (h.matchSeqFrom inner [] hstart) fun _ _ =>
      .bind .takeAccepted fun _ _ => .ite (fun _ => .pure trivial) fun _ =>
        .bind (.budgeted _) fun _ _ => .ite (fun _ => .pure trivial) fun _ => ih hrest)

theorem conditionMatched (lookbehind : Bool) (inner : Node) (hpos : pos ≤ env.chars.length)
    (saved : MatchState) :
    Confined (conditionMatched E lookbehind inner pos saved) fun _ => True :=
  .ite
    (fun _ => h.conditionLookbehind inner pos saved fun _ hstart =>
      Nat.le_trans (le_of_mem_startsUpTo hstart) hpos)
    fun _ => .bind (h.matchSeqFrom inner [] hpos) fun _ _ =>
      .keptThen (fun _ => ⟨rfl, rfl⟩) (.pure trivial)

theorem assertionHolds (positive lookbehind : Bool) (inner : Node)
    (hpos : pos ≤ env.chars.length) :
    Confined (assertionHolds E positive lookbehind inner pos) fun _ => True :=
  .bind .view fun _ _ => .bind (h.conditionMatched lookbehind inner hpos _) fun _ _ =>
    .ite (fun _ => .keptThen (fun _ => ⟨rfl, rfl⟩) (.pure trivial)) fun _ =>
      .ite (fun _ => .pure trivial) fun _ => .keptThen (fun _ => ⟨rfl, rfl⟩) (.pure trivial)

theorem captureConditionMatches (condition : CaptureCondition) (hpos : pos ≤ env.chars.length) :
    Confined (captureConditionMatches env E condition pos) fun _ => True := by
  refine .bind .view fun s _ => ?_
  cases condition with
  | group index => exact .pure trivial
  | name n => exact .pure trivial
  | recursionTarget target => exact .pure trivial
  | ambiguousRecursion n target =>
    refine .ite (fun _ => .pure trivial) fun _ => ?_
    cases target with
    | none => exact .pure trivial
    | some target => exact .pure trivial
  | assertion positive lookbehind inner => exact h.assertionHolds positive lookbehind inner hpos
  | always value => exact .pure trivial

theorem matchConditional (condition : CaptureCondition) (yes : Node) (no : Option Node)
    (rest : List Node) (hpos : pos ≤ env.chars.length) :
    Confined (matchConditional env E condition yes no rest pos)
      (Between pos env.chars.length) := by
  refine .bind (h.captureConditionMatches condition hpos) fun holds _ => ?_
  cases if holds then some yes else no with
  | none => exact h.matchRest rest hpos
  | some node => exact h.matchSeqFrom node rest hpos

theorem matchMark (n : GroupName) (rest : List Node) (hpos : pos ≤ env.chars.length) :
    Confined (matchMark E n rest pos) (Between pos env.chars.length) :=
  .bind .view fun _ _ => .keptThen (fun _ => ⟨rfl, rfl⟩)
    (h.matchRestOrElse rest (Nat.le_refl _) hpos
      (.keptThen (fun _ => ⟨rfl, rfl⟩) (.pure between_none)))

theorem matchControl (verb : ControlVerb) (n : Option GroupName) (rest : List Node)
    (hpos : pos ≤ env.chars.length) :
    Confined (matchControl E verb n rest pos) (Between pos env.chars.length) := by
  have hverb (verb : ControlVerb) : Confined
      (do
        match ← Regex.matchRest E rest pos with
        | some final => pure (some final)
        | none => do
          let s ← view
          if s.control.isNone then do
            setControl (verbControl verb n pos s.markPositions)
            pure none
          else pure none) (Between pos env.chars.length) :=
    h.matchRestOrElse rest (Nat.le_refl _) hpos (.bind .view fun _ _ =>
      .ite (fun _ => .keptThen (fun _ => ⟨rfl, rfl⟩) (.pure between_none)) fun _ =>
        .pure between_none)
  refine .bind (.publishMark n) fun _ _ => ?_
  cases verb with
  | fail => exact .pure between_none
  | accept =>
    exact .keptThen (fun _ => ⟨rfl, rfl⟩) (.pure (between_some (Nat.le_refl _) hpos))
  | commit => exact hverb .commit
  | prune => exact hverb .prune
  | skip => exact hverb .skip
  | «then» => exact hverb .then

theorem matchResetStart (rest : List Node) (hpos : pos ≤ env.chars.length) :
    Confined (matchResetStart env E rest pos) (Between pos env.chars.length) := by
  refine .bind .view fun s _ => ?_
  cases s.groups with
  | nil => exact h.matchRest rest hpos
  | cons saved groups =>
    exact .keptThen (fun _ => ⟨rfl, rfl⟩) (h.matchRestOrElse rest (Nat.le_refl _) hpos
      (.keptThen (fun _ => ⟨rfl, rfl⟩) (.pure between_none)))

end Helpers

end Engine.IsConfined

end Rphp.Regex
