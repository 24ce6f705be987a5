import Mathlib.Data.List.Basic

namespace Rphp.Lib
set_option autoImplicit true

/-! Lists passed through stages of partial functions, and the same stages in one pass. -/

section Fusion

/-- Keep the elements that a partial test accepts. -/
def filterStage (p : α → Option Bool) : List α → Option (List α)
  | [] => some []
  | a :: as => do
    let keep ← p a
    let kept ← filterStage p as
    some (if keep then a :: kept else kept)

/-- Map, test and add up in one pass, with the number of the elements kept. -/
def fuseMapFilter (f : α → Option β) (p : β → Option Bool) (g : γ → β → Option γ) :
    List α → γ → Nat → Option (γ × Nat)
  | [], carry, retained => some (carry, retained)
  | a :: as, carry, retained => do
    let b ← f a
    let keep ← p b
    if keep then fuseMapFilter f p g as (← g carry b) (retained + 1)
    else fuseMapFilter f p g as carry retained

/-- Test, map and add up in one pass, with the number of the elements kept. -/
def fuseFilterMap (p : α → Option Bool) (f : α → Option β) (g : γ → β → Option γ) :
    List α → γ → Nat → Option (γ × Nat)
  | [], carry, retained => some (carry, retained)
  | a :: as, carry, retained => do
    let keep ← p a
    if keep then fuseFilterMap p f g as (← g carry (← f a)) (retained + 1)
    else fuseFilterMap p f g as carry retained

theorem filterStage_cons (hkeep : p a = some keep) (hkept : filterStage p as = some kept) :
    filterStage p (a :: as) = some (if keep then a :: kept else kept) := by
  simp only [filterStage, hkeep, hkept, Option.bind_eq_bind, Option.bind_some]

theorem mapM_cons_some {f : α → Option β} (hb : f a = some b) (hbs : as.mapM f = some bs) :
    (a :: as).mapM f = some (b :: bs) := by
  simp only [List.mapM_cons, hb, hbs, Option.bind_eq_bind, Option.bind_some, Option.pure_def]

/-- What one pass computes, the stages compute one after the other. -/
theorem stages_of_fuseMapFilter {g : γ → β → Option γ}
    (h : fuseMapFilter f p g as carry retained = some (c, n)) :
    ∃ bs kept, as.mapM f = some bs ∧ filterStage p bs = some kept ∧
      kept.foldlM g carry = some c ∧ n = retained + kept.length := by
  induction as generalizing carry retained with
  | nil =>
    cases h
    exact ⟨[], [], rfl, rfl, rfl, rfl⟩
  | cons a as ih =>
    simp only [fuseMapFilter, Option.bind_eq_bind, Option.bind_eq_some_iff] at h
    obtain ⟨b, hb, keep, hkeep, h⟩ := h
    cases keep with
    | true =>
      simp only [if_true, Option.bind_eq_some_iff] at h
      obtain ⟨carry', hcarry, h⟩ := h
      obtain ⟨bs, kept, hbs, hkept, hreduce, hn⟩ := ih h
      refine ⟨b :: bs, b :: kept, mapM_cons_some hb hbs, filterStage_cons hkeep hkept, ?_, ?_⟩
      · rw [List.foldlM_cons, hcarry]
        exact hreduce
      · rw [hn, List.length_cons]
        omega
    | false =>
      obtain ⟨bs, kept, hbs, hkept, hreduce, hn⟩ := ih h
      exact ⟨b :: bs, kept, mapM_cons_some hb hbs, filterStage_cons hkeep hkept, hreduce, hn⟩

theorem stages_of_fuseFilterMap {g : γ → β → Option γ}
    (h : fuseFilterMap p f g as carry retained = some (c, n)) :
    ∃ kept bs, filterStage p as = some kept ∧ kept.mapM f = some bs ∧
      bs.foldlM g carry = some c ∧ n = retained + kept.length := by
  induction as generalizing carry retained with
  | nil =>
    cases h
    exact ⟨[], [], rfl, rfl, rfl, rfl⟩
  | cons a as ih =>
    simp only [fuseFilterMap, Option.bind_eq_bind, Option.bind_eq_some_iff] at h
    obtain ⟨keep, hkeep, h⟩ := h
    cases keep with
    | true =>
      simp only [if_true, Option.bind_eq_some_iff] at h
      obtain ⟨b, hb, carry', hcarry, h⟩ := h
      obtain ⟨kept, bs, hkept, hbs, hreduce, hn⟩ := ih h
      refine ⟨a :: kept, b :: bs, filterStage_cons hkeep hkept, mapM_cons_some hb hbs, ?_, ?_⟩
      · rw [List.foldlM_cons, hcarry]
        exact hreduce
      · rw [hn, List.length_cons]
        omega
    | false =>
      obtain ⟨kept, bs, hkept, hbs, hreduce, hn⟩ := ih h
      exact ⟨kept, bs, filterStage_cons hkeep hkept, hbs, hreduce, hn⟩

end Fusion

end Rphp.Lib
