import Mathlib.Data.List.Basic
import Mathlib.Data.Set.Basic

namespace Rphp.Lib
set_option autoImplicit true

/-- The indices whose mark is set. -/
def marked (live : List Bool) : Set Nat := {i | live[i]? = some true}

/-- Set the marks of the given indices; also return those that were unset, in order. -/
def markAll : List Nat → List Bool → List Bool × List Nat
  | [], live => (live, [])
  | target :: targets, live =>
    if live[target]? = some false then
      let r := markAll targets (live.set target true)
      (r.1, target :: r.2)
    else
      markAll targets live

theorem count_set_true {live : List Bool} (h : live[i]? = some false) :
    (live.set i true).count false + 1 = live.count false := by
  induction live generalizing i with
  | nil => simp at h
  | cons b live ih =>
    cases i with
    | zero =>
      simp only [List.getElem?_cons_zero, Option.some.injEq] at h
      subst b
      simp
    | succ i =>
      simp only [List.getElem?_cons_succ] at h
      have := ih h
      simp only [List.set_cons_succ, List.count_cons]
      omega

theorem markAll_count (targets : List Nat) (live : List Bool) :
    (markAll targets live).1.count false + (markAll targets live).2.length =
      live.count false := by
  induction targets generalizing live with
  | nil => rfl
  | cons target targets ih =>
    unfold markAll
    split
    · rename_i h
      have := ih (live.set target true)
      have := count_set_true h
      simp only [List.length_cons]
      omega
    · exact ih live

/-- Mark everything reachable from the queue along the adjacency lists, first in first out. -/
def drain (adjacency : List (List Nat)) (live : List Bool) : List Nat → List Bool
  | [] => live
  | source :: queue =>
    let r := markAll (adjacency.getD source []) live
    drain adjacency r.1 (queue ++ r.2)
termination_by queue => 2 * live.count false + queue.length
decreasing_by
  have := markAll_count (adjacency.getD source []) live
  simp only [List.length_append, List.length_cons]
  omega

@[simp] theorem markAll_length (targets : List Nat) (live : List Bool) :
    (markAll targets live).1.length = live.length := by
  induction targets generalizing live with
  | nil => rfl
  | cons target targets ih =>
    unfold markAll
    split
    · simp only [ih, List.length_set]
    · exact ih live

theorem mem_marked_set {live : List Bool} (h : i < live.length) (k : Nat) :
    k ∈ marked (live.set i true) ↔ k = i ∨ k ∈ marked live := by
  simp only [marked, Set.mem_ofPred_eq, List.getElem?_set]
  by_cases hk : i = k
  · subst hk
    simp [h]
  · simp [hk, Ne.symm hk]

/-- Exactly the targets inside the table are newly marked. -/
theorem mem_marked_markAll (targets : List Nat) (live : List Bool) (k : Nat) :
    k ∈ marked (markAll targets live).1 ↔
      k ∈ marked live ∨ k ∈ targets ∧ k < live.length := by
  induction targets generalizing live with
  | nil => simp [markAll]
  | cons target targets ih =>
    unfold markAll
    split
    · rename_i h
      have hlt : target < live.length := (List.getElem?_eq_some_iff.1 h).1
      simp only [ih, mem_marked_set hlt, List.length_set, List.mem_cons]
      constructor
      · rintro ((rfl | hk) | hk)
        · exact .inr ⟨.inl rfl, hlt⟩
        · exact .inl hk
        · exact .inr ⟨.inr hk.1, hk.2⟩
      · rintro (hk | ⟨rfl | hk, hl⟩)
        · exact .inl (.inr hk)
        · exact .inl (.inl rfl)
        · exact .inr ⟨hk, hl⟩
    · rename_i h
      simp only [ih, List.mem_cons]
      constructor
      · rintro (hk | hk)
        · exact .inl hk
        · exact .inr ⟨.inr hk.1, hk.2⟩
      · rintro (hk | ⟨rfl | hk, hl⟩)
        · exact .inl hk
        · left
          cases hb : live[k]? with
          | none => exact absurd hl (by simpa using hb)
          | some b =>
            cases b with
            | false => exact absurd hb h
            | true => exact hb
        · exact .inr ⟨hk, hl⟩

/-- The indices handed back are the newly marked ones. -/
theorem mem_markAll_snd (targets : List Nat) (live : List Bool) (k : Nat) :
    k ∈ (markAll targets live).2 ↔
      k ∈ marked (markAll targets live).1 ∧ k ∉ marked live := by
  induction targets generalizing live with
  | nil => simp [markAll]
  | cons target targets ih =>
    unfold markAll
    split
    · rename_i h
      have hlt : target < live.length := (List.getElem?_eq_some_iff.1 h).1
      have hnot : target ∉ marked live := by simp [marked, h]
      have hself : target ∈ marked (markAll targets (live.set target true)).1 :=
        (mem_marked_markAll _ _ _).2 (.inl ((mem_marked_set hlt _).2 (.inl rfl)))
      simp only [List.mem_cons, ih, mem_marked_set hlt]
      constructor
      · rintro (rfl | ⟨hk, hn⟩)
        · exact ⟨hself, hnot⟩
        · exact ⟨hk, fun hm => hn (.inr hm)⟩
      · rintro ⟨hk, hn⟩
        by_cases he : k = target
        · exact .inl he
        · exact .inr ⟨hk, by rintro (h' | h'); exacts [he h', hn h']⟩
    · exact ih live

@[simp] theorem drain_length (adjacency : List (List Nat)) (live : List Bool)
    (queue : List Nat) : (drain adjacency live queue).length = live.length := by
  induction live, queue using drain.induct adjacency with
  | case1 live => simp [drain]
  | case2 live source queue r ih =>
    rw [drain]
    exact ih.trans (markAll_length _ _)

theorem drain_count_le (adjacency : List (List Nat)) (live : List Bool) (queue : List Nat) :
    (drain adjacency live queue).count false ≤ live.count false := by
  induction live, queue using drain.induct adjacency with
  | case1 live => simp [drain]
  | case2 live source queue r ih =>
    rw [drain]
    have := markAll_count (adjacency.getD source []) live
    exact ih.trans (by simp only [r]; omega)

/-- An index set closed under the edges of the table. -/
def EdgeClosed (adjacency : List (List Nat)) (n : Nat) (S : Set Nat) : Prop :=
  ∀ source ∈ S, ∀ target ∈ adjacency.getD source [], target < n → target ∈ S

theorem mem_marked_drain (adjacency : List (List Nat)) {live : List Bool} (queue : List Nat)
    (h : k ∈ marked live) : k ∈ marked (drain adjacency live queue) := by
  induction live, queue using drain.induct adjacency with
  | case1 live => simpa [drain] using h
  | case2 live source queue r ih =>
    rw [drain]
    exact ih ((mem_marked_markAll _ _ _).2 (.inl h))

/-- Draining reaches nothing outside a closed set that holds the marks and the queue. -/
theorem drain_subset {adjacency : List (List Nat)} {live : List Bool} {queue : List Nat}
    {S : Set Nat} (hS : EdgeClosed adjacency live.length S) (hm : marked live ⊆ S)
    (hq : ∀ i ∈ queue, i ∈ S) : marked (drain adjacency live queue) ⊆ S := by
  induction live, queue using drain.induct adjacency with
  | case1 live => simpa [drain] using hm
  | case2 live source queue r ih =>
    rw [drain]
    have hr : marked r.1 ⊆ S := by
      intro k hk
      rcases (mem_marked_markAll _ _ _).1 hk with hk | ⟨hk, hl⟩
      · exact hm hk
      · exact hS source (hq source (by simp)) k hk hl
    refine ih ?_ hr ?_
    · simpa only [r, markAll_length] using hS
    · intro i hi
      rcases List.mem_append.1 hi with hi | hi
      · exact hq i (List.mem_cons_of_mem _ hi)
      · exact hr ((mem_markAll_snd _ _ _).1 hi).1

/-- With every marked index outside the queue already expanded, draining leaves a closed set. -/
theorem drain_closed {adjacency : List (List Nat)} {live : List Bool} {queue : List Nat}
    (h : ∀ source ∈ marked live, source ∉ queue →
      ∀ target ∈ adjacency.getD source [], target < live.length → target ∈ marked live) :
    EdgeClosed adjacency live.length (marked (drain adjacency live queue)) := by
  induction live, queue using drain.induct adjacency with
  | case1 live =>
    intro source hs target ht hl
    simp only [drain] at hs ⊢
    exact h source hs (by simp) target ht hl
  | case2 live source queue r ih =>
    rw [drain]
    simp only [r, markAll_length] at ih
    apply ih
    intro s hs hsq t ht hl
    refine (mem_marked_markAll _ _ _).2 ?_
    rw [List.mem_append, not_or] at hsq
    have hold : s ∈ marked live := by
      by_contra hn
      exact hsq.2 ((mem_markAll_snd _ _ _).2 ⟨hs, hn⟩)
    by_cases he : s = source
    · subst he
      exact .inr ⟨ht, hl⟩
    · exact .inl (h s hold (by simp [he, hsq.1]) t ht hl)

end Rphp.Lib
