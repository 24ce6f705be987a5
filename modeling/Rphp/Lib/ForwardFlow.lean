import Mathlib.Data.List.Nodup
import Mathlib.Logic.Function.Basic

namespace Rphp.Lib
set_option autoImplicit true

/-- Following the edges from `u` visits `nodes`, in this order, and arrives at `v`. -/
inductive Route (next : Nat → List Nat) : Nat → List Nat → Nat → Prop
  | nil : Route next u [] u
  | snoc : Route next u nodes v → w ∈ next v → Route next u (nodes ++ [v]) w

/-- Every edge leads to a greater node. -/
def Forward (next : Nat → List Nat) : Prop := ∀ u, ∀ v ∈ next u, u < v

theorem mem_concat_iff : x ∈ nodes ++ [v] ↔ x ∈ nodes ∨ x = v := by
  simp

namespace Route

theorem lt_of_mem (hf : Forward next) (h : Route next u nodes v) (hx : x ∈ nodes) : x < v := by
  induction h with
  | nil => cases hx
  | snoc h hw ih =>
    obtain hx | rfl := mem_concat_iff.1 hx
    · exact Nat.lt_trans (ih hx) (hf _ _ hw)
    · exact hf _ _ hw

theorem nodup (hf : Forward next) (h : Route next u nodes v) : nodes.Nodup := by
  induction h with
  | nil => exact List.nodup_nil
  | snoc h hw ih =>
    refine List.nodup_append.2 ⟨ih, List.nodup_singleton _, ?_⟩
    intro x hx y hy
    obtain rfl := List.mem_singleton.1 hy
    exact Nat.ne_of_lt (h.lt_of_mem hf hx)

/-- A route that uses only nodes up to `i` either avoids `i` or ends with an edge out of `i`. -/
theorem below_succ_iff (hf : Forward next) :
    (Route next u nodes v ∧ ∀ x ∈ nodes, x < i + 1) ↔
      (Route next u nodes v ∧ ∀ x ∈ nodes, x < i) ∨
        ∃ init, nodes = init ++ [i] ∧ Route next u init i ∧ v ∈ next i := by
  constructor
  · rintro ⟨h, hlt⟩
    cases h with
    | nil => exact .inl ⟨.nil, by simp⟩
    | @snoc nodes w _ h hw =>
      by_cases hwi : w = i
      · subst hwi
        exact .inr ⟨_, rfl, h, hw⟩
      · refine .inl ⟨.snoc h hw, fun x hx => ?_⟩
        have hwlt := hlt w (by simp)
        obtain hx | rfl := mem_concat_iff.1 hx
        · have := h.lt_of_mem hf hx
          omega
        · omega
  · rintro (⟨h, hlt⟩ | ⟨init, rfl, h, hv⟩)
    · exact ⟨h, fun x hx => Nat.lt_succ_of_lt (hlt x hx)⟩
    · refine ⟨.snoc h hv, fun x hx => ?_⟩
      obtain hx | rfl := mem_concat_iff.1 hx
      · exact Nat.lt_succ_of_lt (h.lt_of_mem hf hx)
      · exact Nat.lt_succ_self _

end Route

/-! One pass over a forward graph, in node order. -/

/-- Meet a fact into a node; the first fact that arrives is taken as it is. -/
def mergeFact (meet : F → F → F) (facts : Nat → Option F) (target : Nat) (fact : F) :
    Nat → Option F :=
  Function.update facts target (some ((facts target).elim fact fun old => meet old fact))

/-- Send the fact of a node, if it has one, along its edges. -/
def visit (next : Nat → List Nat) (meet : F → F → F) (transfer : Nat → F → F)
    (facts : Nat → Option F) (i : Nat) : Nat → Option F :=
  match facts i with
  | none => facts
  | some fact => (next i).foldl (fun facts t => mergeFact meet facts t (transfer i fact)) facts

def forwardPass (next : Nat → List Nat) (meet : F → F → F) (transfer : Nat → F → F)
    (entry : F) (n : Nat) : Nat → Option F :=
  (List.range n).foldl (visit next meet transfer) (Function.update (fun _ => none) 0 (some entry))

/-- The property holds of the fact, if there is one. -/
def HoldsOf (P : F → Prop) (fact : Option F) : Prop := ∀ f, fact = some f → P f

section

variable {next : Nat → List Nat} {meet : F → F → F} {transfer : Nat → F → F} {entry : F}
variable {P : F → Prop}

theorem forwardPass_succ (n : Nat) :
    forwardPass next meet transfer entry (n + 1) =
      visit next meet transfer (forwardPass next meet transfer entry n) n := by
  simp only [forwardPass, List.range_succ, List.foldl_append, List.foldl_cons, List.foldl_nil]

theorem foldl_mergeFact_isSome (facts : Nat → Option F) (targets : List Nat) (fact : F) (v : Nat) :
    ((targets.foldl (fun facts t => mergeFact meet facts t fact) facts) v).isSome ↔
      (facts v).isSome ∨ v ∈ targets := by
  induction targets generalizing facts with
  | nil => simp
  | cons t targets ih =>
    rw [List.foldl_cons, ih, List.mem_cons]
    by_cases hv : v = t
    · subst hv
      simp [mergeFact]
    · simp only [mergeFact, Function.update_of_ne hv, hv, false_or]

theorem foldl_mergeFact_holds (hmeet : ∀ a b, P (meet a b) ↔ P a ∧ P b)
    (facts : Nat → Option F) (targets : List Nat) (fact : F) (v : Nat) :
    HoldsOf P ((targets.foldl (fun facts t => mergeFact meet facts t fact) facts) v) ↔
      HoldsOf P (facts v) ∧ (v ∈ targets → P fact) := by
  induction targets generalizing facts with
  | nil => simp
  | cons t targets ih =>
    rw [List.foldl_cons, ih, List.mem_cons]
    by_cases hv : v = t
    · subst hv
      have hmerge : HoldsOf P (mergeFact meet facts v fact v) ↔ HoldsOf P (facts v) ∧ P fact := by
        cases h : facts v <;> simp [mergeFact, HoldsOf, h, hmeet]
      rw [hmerge]
      tauto
    · simp only [mergeFact, Function.update_of_ne hv, hv, false_or]

/-- After `n` nodes a node has a fact exactly if a route over these nodes reaches it. -/
theorem forwardPass_isSome (hf : Forward next) (n v : Nat) :
    (forwardPass next meet transfer entry n v).isSome ↔
      ∃ nodes, Route next 0 nodes v ∧ ∀ x ∈ nodes, x < n := by
  induction n generalizing v with
  | zero =>
    constructor
    · intro h
      by_cases hv : v = 0
      · subst hv
        exact ⟨[], .nil, by simp⟩
      · simp [forwardPass, Function.update_of_ne hv] at h
    · rintro ⟨nodes, h, hlt⟩
      cases h with
      | nil => simp [forwardPass]
      | @snoc _ w _ h hw => exact absurd (hlt w (by simp)) (Nat.not_lt_zero w)
  | succ n ih =>
    simp only [Route.below_succ_iff hf]
    rw [forwardPass_succ, visit]
    cases hn : forwardPass next meet transfer entry n n with
    | none =>
      rw [ih]
      constructor
      · rintro ⟨nodes, h⟩
        exact ⟨nodes, .inl h⟩
      · rintro ⟨nodes, h | ⟨init, -, h, -⟩⟩
        · exact ⟨nodes, h⟩
        · have := (ih n).2 ⟨init, h, fun x hx => h.lt_of_mem hf hx⟩
          simp [hn] at this
    | some fact =>
      obtain ⟨init, hinit, -⟩ := (ih n).1 (by simp [hn])
      rw [foldl_mergeFact_isSome, ih]
      constructor
      · rintro (⟨nodes, h⟩ | hv)
        · exact ⟨nodes, .inl h⟩
        · exact ⟨init ++ [n], .inr ⟨init, rfl, hinit, hv⟩⟩
      · rintro ⟨nodes, h | ⟨init, -, -, hv⟩⟩
        · exact .inl ⟨nodes, h⟩
        · exact .inr hv

/-- A property that meets split and that only generating nodes add holds of a node's fact exactly
if every route to the node passes one that generates it. -/
theorem forwardPass_holds {gen : Nat → Prop} (hf : Forward next)
    (hmeet : ∀ a b, P (meet a b) ↔ P a ∧ P b) (htransfer : ∀ i f, P (transfer i f) ↔ P f ∨ gen i)
    (hentry : ¬ P entry) (n v : Nat) :
    HoldsOf P (forwardPass next meet transfer entry n v) ↔
      ∀ nodes, Route next 0 nodes v → (∀ x ∈ nodes, x < n) → ∃ x ∈ nodes, gen x := by
  induction n generalizing v with
  | zero =>
    by_cases hv : v = 0
    · subst hv
      simp only [forwardPass, HoldsOf, List.range_zero, List.foldl_nil, Function.update_self,
        Option.some.injEq, forall_eq']
      constructor
      · intro h
        exact absurd h hentry
      · intro h
        obtain ⟨x, hx, -⟩ := h [] .nil (by simp)
        cases hx
    · simp only [forwardPass, HoldsOf, List.range_zero, List.foldl_nil,
        Function.update_of_ne hv, reduceCtorEq, false_implies, implies_true, true_iff]
      intro nodes h hlt
      cases h with
      | nil => exact absurd rfl hv
      | @snoc _ w _ h hw => exact absurd (hlt w (by simp)) (Nat.not_lt_zero w)
  | succ n ih =>
    have hsplit : (∀ nodes, Route next 0 nodes v → (∀ x ∈ nodes, x < n + 1) → ∃ x ∈ nodes, gen x) ↔
        (∀ nodes, Route next 0 nodes v → (∀ x ∈ nodes, x < n) → ∃ x ∈ nodes, gen x) ∧
          (v ∈ next n → gen n ∨ ∀ init, Route next 0 init n → ∃ x ∈ init, gen x) := by
      constructor
      · intro h
        refine ⟨fun nodes hw hlt => h nodes hw fun x hx => Nat.lt_succ_of_lt (hlt x hx), ?_⟩
        intro hv
        by_cases hgen : gen n
        · exact .inl hgen
        · refine .inr fun init hinit => ?_
          have hall := (Route.below_succ_iff hf).2 (.inr ⟨init, rfl, hinit, hv⟩)
          obtain ⟨x, hx, hg⟩ := h _ hall.1 hall.2
          obtain hx | rfl := mem_concat_iff.1 hx
          · exact ⟨x, hx, hg⟩
          · exact absurd hg hgen
      · rintro ⟨hold, hnew⟩ nodes hw hlt
        obtain ⟨hw, hlt⟩ | ⟨init, rfl, hinit, hv⟩ := (Route.below_succ_iff hf).1 ⟨hw, hlt⟩
        · exact hold nodes hw hlt
        · obtain hg | hg := hnew hv
          · exact ⟨n, by simp, hg⟩
          · obtain ⟨x, hx, hg⟩ := hg init hinit
            exact ⟨x, List.mem_append_left _ hx, hg⟩
    have hbelow (init : List Nat) (h : Route next 0 init n) : ∀ x ∈ init, x < n :=
      fun x hx => h.lt_of_mem hf hx
    rw [hsplit, forwardPass_succ, visit]
    cases hn : forwardPass next meet transfer entry n n with
    | none =>
      have hnone : ∀ init, ¬ Route next 0 init n := by
        intro init h
        have hsome : (forwardPass next meet transfer entry n n).isSome :=
          (forwardPass_isSome hf n n).2 ⟨init, h, hbelow init h⟩
        simp [hn] at hsome
      rw [ih]
      exact ⟨fun h => ⟨h, fun _ => .inr fun init hinit => absurd hinit (hnone init)⟩, fun h => h.1⟩
    | some fact =>
      have hfact : P fact ↔ ∀ init, Route next 0 init n → ∃ x ∈ init, gen x := by
        have := ih n
        simp only [hn, HoldsOf, Option.some.injEq, forall_eq'] at this
        rw [this]
        exact ⟨fun h init hinit => h init hinit (hbelow init hinit), fun h init hinit _ => h init hinit⟩
      rw [foldl_mergeFact_holds hmeet, ih, htransfer, hfact, or_comm]

end

end Rphp.Lib
