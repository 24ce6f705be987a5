import Mathlib.Data.List.Basic

namespace Rphp.Lib
set_option autoImplicit true

/-- Run a partial step function over a list of inputs. A step without a result ends the run. -/
def run (step : σ → ι → Option σ) : σ → List ι → Option σ
  | s, [] => some s
  | s, i :: is => (step s i).bind fun s' => run step s' is

/-- Every step of the run satisfies the condition in the state in which it is taken. -/
def Meets (step : σ → ι → Option σ) (ok : σ → ι → Prop) : σ → List ι → Prop
  | _, [] => True
  | s, i :: is => ok s i ∧
    match step s i with
    | some s' => Meets step ok s' is
    | none => True

instance decidableMeets (step : σ → ι → Option σ) (ok : σ → ι → Prop)
    [∀ s i, Decidable (ok s i)] : ∀ s is, Decidable (Meets step ok s is)
  | _, [] => .isTrue trivial
  | s, i :: is =>
    match h : step s i with
    | some s' =>
      have : Decidable (Meets step ok s' is) := decidableMeets step ok s' is
      decidable_of_iff (ok s i ∧ Meets step ok s' is) (by simp only [Meets, h])
    | none => decidable_of_iff (ok s i) (by simp only [Meets, h, and_true])

@[simp] theorem run_nil (step : σ → ι → Option σ) (s : σ) : run step s [] = some s := rfl

theorem run_cons_eq_some {step : σ → ι → Option σ} :
    run step s (i :: is) = some t ↔ ∃ u, step s i = some u ∧ run step u is = some t := by
  simp only [run, Option.bind_eq_some_iff]

theorem run_append {step : σ → ι → Option σ} (is js : List ι) :
    run step s (is ++ js) = (run step s is).bind fun t => run step t js := by
  induction is generalizing s with
  | nil => rfl
  | cons i is ih =>
    cases h : step s i with
    | none => simp only [List.cons_append, run, h, Option.bind_none]
    | some u => simp only [List.cons_append, run, h, Option.bind_some, ih]

/-- What every step that meets the condition preserves, a whole run of such steps preserves. -/
theorem run_invariant {step : σ → ι → Option σ} {ok : σ → ι → Prop} {Inv : σ → Prop}
    (hstep : ∀ s i s', Inv s → ok s i → step s i = some s' → Inv s')
    (hs : Inv s) (hok : Meets step ok s is) (hr : run step s is = some t) : Inv t := by
  induction is generalizing s with
  | nil => cases hr; exact hs
  | cons i is ih =>
    obtain ⟨u, hu, hr⟩ := run_cons_eq_some.1 hr
    simp only [Meets, hu] at hok
    exact ih (hstep _ _ _ hs hok.1 hu) hok.2 hr

/-- A run whose steps all return, and keep an invariant, returns in it. -/
theorem run_exists {step : σ → ι → Option σ} {Inv : σ → Prop} (is : List ι)
    (hstep : ∀ s, ∀ i ∈ is, Inv s → ∃ s', step s i = some s' ∧ Inv s') (hs : Inv s) :
    ∃ t, run step s is = some t ∧ Inv t := by
  induction is generalizing s with
  | nil => exact ⟨s, rfl, hs⟩
  | cons i is ih =>
    obtain ⟨u, hu, hinv⟩ := hstep s i List.mem_cons_self hs
    obtain ⟨t, ht, hinv⟩ := ih (fun s j hj => hstep s j (List.mem_cons_of_mem _ hj)) hinv
    exact ⟨t, run_cons_eq_some.2 ⟨u, hu, ht⟩, hinv⟩

theorem meets_of_forall {step : σ → ι → Option σ} {ok : σ → ι → Prop}
    (h : ∀ s i, ok s i) (s : σ) (is : List ι) : Meets step ok s is := by
  induction is generalizing s with
  | nil => trivial
  | cons i is ih =>
    refine ⟨h s i, ?_⟩
    cases step s i with
    | none => trivial
    | some u => exact ih u

/-! Calls that answer. -/

/-- The answers that a list of calls gets, one after the other. -/
def observations (act : σ → ι → σ × ω) : σ → List ι → List ω
  | _, [] => []
  | s, i :: is => (act s i).2 :: observations act (act s i).1 is

/-- No list of calls tells the two states apart. -/
def Indistinguishable (act : σ → ι → σ × ω) (s t : σ) : Prop :=
  ∀ is, observations act s is = observations act t is

/-- States that one call leads to are told apart no better than the states before it. -/
theorem Indistinguishable.after {act : σ → ι → σ × ω} (h : Indistinguishable act s t)
    (is : List ι) :
    Indistinguishable act (is.foldl (fun s i => (act s i).1) s)
      (is.foldl (fun s i => (act s i).1) t) := by
  induction is generalizing s t with
  | nil => exact h
  | cons i is ih =>
    refine ih fun js => ?_
    have := h (i :: js)
    simp only [observations, List.cons.injEq] at this
    exact this.2

/-! Two state machines that answer alike. -/

/-- Related states answer alike and stay related, for the calls that are allowed. -/
structure Simulates (act : σ → ι → σ × ω) (act' : τ → ι → τ × ω) (ok : σ → ι → Prop)
    (R : σ → τ → Prop) : Prop where
  answer : ∀ s t i, R s t → ok s i → (act s i).2 = (act' t i).2
  related : ∀ s t i, R s t → ok s i → R (act s i).1 (act' t i).1

/-- Every call of a run is allowed when it is made. -/
def Allowed (act : σ → ι → σ × ω) (ok : σ → ι → Prop) : σ → List ι → Prop
  | _, [] => True
  | s, i :: is => ok s i ∧ Allowed act ok (act s i).1 is

instance decidableAllowed (act : σ → ι → σ × ω) (ok : σ → ι → Prop)
    [∀ s i, Decidable (ok s i)] : ∀ s is, Decidable (Allowed act ok s is)
  | _, [] => .isTrue trivial
  | s, i :: is =>
    have : Decidable (Allowed act ok (act s i).1 is) := decidableAllowed act ok (act s i).1 is
    inferInstanceAs (Decidable (ok s i ∧ Allowed act ok (act s i).1 is))

theorem Simulates.observations {act : σ → ι → σ × ω} {act' : τ → ι → τ × ω}
    {ok : σ → ι → Prop} {R : σ → τ → Prop} (h : Simulates act act' ok R) (hR : R s t)
    (hok : Allowed act ok s is) : observations act s is = observations act' t is := by
  induction is generalizing s t with
  | nil => rfl
  | cons i is ih =>
    rw [Lib.observations, Lib.observations, h.answer s t i hR hok.1,
      ih (h.related s t i hR hok.1) hok.2]

/-- The states that related ones lead to are related. -/
theorem Simulates.after {act : σ → ι → σ × ω} {act' : τ → ι → τ × ω}
    {ok : σ → ι → Prop} {R : σ → τ → Prop} (h : Simulates act act' ok R) (hR : R s t)
    (hok : Allowed act ok s is) :
    R (is.foldl (fun s i => (act s i).1) s) (is.foldl (fun t i => (act' t i).1) t) := by
  induction is generalizing s t with
  | nil => exact hR
  | cons i is ih => exact ih (h.related s t i hR hok.1) hok.2

/-- Calls that are allowed in every state. -/
theorem allowed_of_forall (act : σ → ι → σ × ω) {ok : σ → ι → Prop} (s : σ) (is : List ι)
    (h : ∀ s, ∀ i ∈ is, ok s i) : Allowed act ok s is := by
  induction is generalizing s with
  | nil => trivial
  | cons i is ih =>
    exact ⟨h s i List.mem_cons_self, ih _ fun s j hj => h s j (List.mem_cons_of_mem _ hj)⟩

end Rphp.Lib
