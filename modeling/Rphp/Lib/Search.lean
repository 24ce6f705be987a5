import Mathlib.Logic.Relation
import Mathlib.Data.List.Basic

namespace Rphp.Lib
set_option autoImplicit true

section Tests
variable {p q : α → Option Bool} {l : List α}

/-- A test of all elements that comes back with yes has asked all of them. -/
theorem allM_eq_true : l.allM p = some true ↔ ∀ x ∈ l, p x = some true := by
  induction l with
  | nil => simp [List.allM]
  | cons a l ih =>
    rcases h : p a with _ | _ | _ <;> simp [List.allM, h, ih]

/-- A test that comes back with no has met a first element that fails. -/
theorem exists_of_allM_eq_false (h : l.allM p = some false) :
    ∃ (k : Nat) (x : α), l[k]? = some x ∧ p x = some false ∧ ∀ y ∈ l.take k, p y = some true := by
  induction l with
  | nil => simp [List.allM] at h
  | cons a l ih =>
    rcases ha : p a with _ | _ | _
    · simp [List.allM, ha] at h
    · exact ⟨0, a, rfl, ha, by simp⟩
    · simp only [List.allM, ha, Option.bind_eq_bind, Option.bind_some] at h
      obtain ⟨k, x, hx, hp, hbefore⟩ := ih h
      refine ⟨k + 1, x, by simpa using hx, hp, fun y hy => ?_⟩
      rcases List.mem_cons.1 hy with rfl | hy
      · exact ha
      · exact hbefore y hy

theorem exists_of_anyM_eq_true (h : l.anyM p = some true) : ∃ x ∈ l, p x = some true := by
  induction l with
  | nil => simp [List.anyM] at h
  | cons a l ih =>
    rcases ha : p a with _ | _ | _
    · simp [List.anyM, ha] at h
    · simp only [List.anyM, ha, Option.bind_eq_bind, Option.bind_some] at h
      obtain ⟨x, hx, hp⟩ := ih h
      exact ⟨x, List.mem_cons_of_mem _ hx, hp⟩
    · exact ⟨a, List.mem_cons_self, ha⟩

/-- A search that comes back with no has asked all elements. -/
theorem anyM_eq_false : l.anyM p = some false ↔ ∀ x ∈ l, p x = some false := by
  induction l with
  | nil => simp [List.anyM]
  | cons a l ih =>
    rcases h : p a with _ | _ | _ <;> simp [List.anyM, h, ih]

theorem exists_map_eq_some {o : Option α} {f : α → β} (h : ∃ a, o = some a) :
    ∃ b, o.map f = some b := by
  obtain ⟨a, rfl⟩ := h
  exact ⟨f a, rfl⟩

/-- A test comes back if it does for each element it comes to: those in front have passed. -/
theorem allM_returns (h : ∀ (k : Nat) x, l[k]? = some x → (∀ y ∈ l.take k, p y = some true) →
    ∃ r, p x = some r) : ∃ r, l.allM p = some r := by
  induction l with
  | nil => exact ⟨true, rfl⟩
  | cons a l ih =>
    obtain ⟨r, hr⟩ := h 0 a rfl (by simp)
    cases r with
    | false => exact ⟨false, by simp [List.allM, hr]⟩
    | true =>
      obtain ⟨r, hl⟩ := ih fun i x hx hbefore => h (i + 1) x (by simpa using hx) fun y hy => by
        rcases List.mem_cons.1 hy with rfl | hy
        · exact hr
        · exact hbefore y hy
      exact ⟨r, by simp [List.allM, hr, hl]⟩

/-- A search comes back if it does for each element it comes to: those in front have failed. -/
theorem anyM_returns (h : ∀ (k : Nat) x, l[k]? = some x → (∀ y ∈ l.take k, p y = some false) →
    ∃ r, p x = some r) : ∃ r, l.anyM p = some r := by
  induction l with
  | nil => exact ⟨false, rfl⟩
  | cons a l ih =>
    obtain ⟨r, hr⟩ := h 0 a rfl (by simp)
    cases r with
    | true => exact ⟨true, by simp [List.anyM, hr]⟩
    | false =>
      obtain ⟨r, hl⟩ := ih fun i x hx hbefore => h (i + 1) x (by simpa using hx) fun y hy => by
        rcases List.mem_cons.1 hy with rfl | hy
        · exact hr
        · exact hbefore y hy
      exact ⟨r, by simp [List.anyM, hr, hl]⟩

theorem allM_mono (h : ∀ x ∈ l, ∀ r, p x = some r → q x = some r) (hr : l.allM p = some r) :
    l.allM q = some r := by
  induction l with
  | nil => exact hr
  | cons a l ih =>
    rcases ha : p a with _ | _ | _
    · simp [List.allM, ha] at hr
    · simp_all [List.allM]
    · simp only [List.allM, ha, h a List.mem_cons_self true ha, Option.bind_eq_bind,
        Option.bind_some] at hr ⊢
      exact ih (fun x hx => h x (List.mem_cons_of_mem _ hx)) hr

theorem anyM_mono (h : ∀ x ∈ l, ∀ r, p x = some r → q x = some r) (hr : l.anyM p = some r) :
    l.anyM q = some r := by
  induction l with
  | nil => exact hr
  | cons a l ih =>
    rcases ha : p a with _ | _ | _
    · simp [List.anyM, ha] at hr
    · simp only [List.anyM, ha, h a List.mem_cons_self false ha, Option.bind_eq_bind,
        Option.bind_some] at hr ⊢
      exact ih (fun x hx => h x (List.mem_cons_of_mem _ hx)) hr
    · simp_all [List.anyM]

end Tests

theorem forall_mem_pair {P : α → Prop} (ha : P a) (hb : P b) : ∀ x ∈ [a, b], P x :=
  List.forall_mem_cons.2 ⟨ha, List.forall_mem_singleton.2 hb⟩

theorem of_le {P : Nat → Prop} (hsucc : ∀ n, P n → P (n + 1)) (h : P k) (hle : k ≤ n) : P n := by
  induction hle with
  | refl => exact h
  | step _ ih => exact hsucc _ ih

/-- What holds from some bound on for each element of a list holds from a common bound on. -/
theorem exists_bound {P : Nat → α → Prop} {l : List α} (hmono : ∀ n x, P n x → P (n + 1) x)
    (h : ∀ x ∈ l, ∃ n, P n x) : ∃ n, ∀ x ∈ l, P n x := by
  induction l with
  | nil => exact ⟨0, nofun⟩
  | cons a l ih =>
    obtain ⟨k, hk⟩ := h a List.mem_cons_self
    obtain ⟨n, hn⟩ := ih fun x hx => h x (List.mem_cons_of_mem _ hx)
    refine ⟨max k n, fun x hx => ?_⟩
    rcases List.mem_cons.1 hx with rfl | hx
    · exact of_le (fun n => hmono n _) hk (Nat.le_max_left _ _)
    · exact of_le (fun n => hmono n _) (hn x hx) (Nat.le_max_right _ _)

section Collect
variable {next : α → List α} {key : α → κ}

/-- What entering some nodes adds to a collection: it covers them, and covers what it adds. -/
structure Collected (next : α → List α) (key : α → κ) (entered : List α)
    (found found' : List α) : Prop where
  keeps : ∀ x ∈ found, x ∈ found'
  covers : ∀ b ∈ entered, ∃ c ∈ found', key c = key b
  closed : ∀ x ∈ found', x ∈ found ∨ ∀ y ∈ next x, ∃ c ∈ found', key c = key y
  sound : ∀ x ∈ found', x ∈ found ∨ ∃ b ∈ entered, Relation.ReflTransGen (fun x y => y ∈ next x) b x

theorem Collected.nil (found : List α) : Collected next key [] found found :=
  ⟨fun _ hx => hx, nofun, fun _ hx => .inl hx, fun _ hx => .inl hx⟩

theorem Collected.cons (h : Collected next key [b] found mid)
    (h' : Collected next key bs mid found') : Collected next key (b :: bs) found found' := by
  refine ⟨fun x hx => h'.keeps x (h.keeps x hx), fun c hc => ?_, fun x hx => ?_, fun x hx => ?_⟩
  · rcases List.mem_cons.1 hc with rfl | hc
    · obtain ⟨d, hd, hk⟩ := h.covers c List.mem_cons_self
      exact ⟨d, h'.keeps d hd, hk⟩
    · exact h'.covers c hc
  · rcases h'.closed x hx with hx | hx
    · rcases h.closed x hx with hx | hx
      · exact .inl hx
      · refine .inr fun y hy => ?_
        obtain ⟨d, hd, hk⟩ := hx y hy
        exact ⟨d, h'.keeps d hd, hk⟩
    · exact .inr hx
  · rcases h'.sound x hx with hx | ⟨c, hc, hr⟩
    · rcases h.sound x hx with hx | ⟨c, hc, hr⟩
      · exact .inl hx
      · exact .inr ⟨c, List.mem_cons.2 (.inl (List.mem_singleton.1 hc)), hr⟩
    · exact .inr ⟨c, List.mem_cons_of_mem _ hc, hr⟩

theorem Collected.enter (h : Collected next key (next b) (found ++ [b]) found') :
    Collected next key [b] found found' := by
  have hb : b ∈ found' := h.keeps b (by simp)
  refine ⟨fun x hx => h.keeps x (by simp [hx]), fun c hc => ⟨b, hb, ?_⟩, fun x hx => ?_,
    fun x hx => ?_⟩
  · rw [List.mem_singleton.1 hc]
  · rcases h.closed x hx with hx | hx
    · rcases List.mem_append.1 hx with hx | hx
      · exact .inl hx
      · rw [List.mem_singleton.1 hx]
        exact .inr h.covers
    · exact .inr hx
  · rcases h.sound x hx with hx | ⟨c, hc, hr⟩
    · rcases List.mem_append.1 hx with hx | hx
      · exact .inl hx
      · rw [List.mem_singleton.1 hx]
        exact .inr ⟨b, List.mem_singleton_self b, .refl⟩
    · exact .inr ⟨b, List.mem_singleton_self b, .head hc hr⟩

variable [DecidableEq κ]

theorem Collected.skip (h : found.any fun c => key c = key b) :
    Collected next key [b] found found := by
  obtain ⟨c, hc, hk⟩ := List.any_eq_true.1 h
  refine ⟨fun _ hx => hx, fun d hd => ⟨c, hc, ?_⟩, fun _ hx => .inl hx, fun _ hx => .inl hx⟩
  rw [List.mem_singleton.1 hd]
  exact of_decide_eq_true hk

/-- Collect what is reachable depth first. A node whose key was met before is not entered
again. -/
def collect (next : α → List α) (key : α → κ) : Nat → α → List α → Option (List α)
  | 0, _, _ => none
  | fuel + 1, a, found =>
    (next a).foldlM (fun found b =>
      if found.any fun c => key c = key b then some found
      else collect next key fuel b (found ++ [b])) found

theorem collect_spec (fuel : Nat) {found found' : List α}
    (h : collect next key fuel a found = some found') :
    Collected next key (next a) found found' := by
  induction fuel generalizing a found found' with
  | zero => simp [collect] at h
  | succ fuel ih =>
    rw [collect] at h
    generalize next a = bs at h
    induction bs generalizing found with
    | nil =>
      cases h
      exact .nil _
    | cons b bs ihl =>
      rw [List.foldlM_cons] at h
      obtain ⟨mid, hmid, h⟩ := Option.bind_eq_some_iff.1 h
      refine .cons ?_ (ihl h)
      split at hmid
      · next hany =>
        cases hmid
        exact .skip hany
      · exact .enter (ih hmid)

/-- The collection holds just what can be reached, if a key belongs to one reachable node. -/
theorem mem_collect (h : collect next key fuel a [] = some found)
    (hkey : ∀ x y, Relation.TransGen (fun x y => y ∈ next x) a x →
      Relation.TransGen (fun x y => y ∈ next x) a y → key x = key y → x = y) :
    x ∈ found ↔ Relation.TransGen (fun x y => y ∈ next x) a x := by
  have hspec := collect_spec fuel h
  have hsound : ∀ x ∈ found, Relation.TransGen (fun x y => y ∈ next x) a x := by
    intro x hx
    rcases hspec.sound x hx with hx | ⟨b, hb, hr⟩
    · cases hx
    · exact .head' hb hr
  refine ⟨hsound x, fun hr => ?_⟩
  induction hr with
  | single hb =>
    obtain ⟨c, hc, hk⟩ := hspec.covers _ hb
    rwa [← hkey c _ (hsound c hc) (.single hb) hk]
  | tail hr hy ih =>
    rcases hspec.closed _ ih with hx | hx
    · cases hx
    · obtain ⟨c, hc, hk⟩ := hx _ hy
      rwa [← hkey c _ (hsound c hc) (hr.tail hy) hk]

theorem collect_mono {fuel : Nat} {found found' : List α}
    (h : collect next key fuel a found = some found') :
    collect next key (fuel + 1) a found = some found' := by
  induction fuel generalizing a found found' with
  | zero => simp [collect] at h
  | succ fuel ih =>
    rw [collect] at h ⊢
    generalize next a = bs at h
    induction bs generalizing found with
    | nil => exact h
    | cons b bs ihl =>
      rw [List.foldlM_cons] at h ⊢
      obtain ⟨mid, hmid, h⟩ := Option.bind_eq_some_iff.1 h
      refine Option.bind_eq_some_iff.2 ⟨mid, ?_, ihl h⟩
      split at hmid
      · next hany => rw [if_pos hany, hmid]
      · next hany => rw [if_neg hany, ih hmid]

/-- The search ends where no path is endless. -/
theorem collect_returns (h : Acc (fun y x => y ∈ next x) a) :
    ∃ fuel, ∀ found, ∃ found', collect next key fuel a found = some found' := by
  induction h with
  | intro a _ ih =>
    obtain ⟨fuel, hfuel⟩ := exists_bound
      (P := fun n b => ∀ found, ∃ found', collect next key n b found = some found')
      (fun n b hb found => (hb found).imp fun _ => collect_mono) ih
    refine ⟨fuel + 1, fun found => ?_⟩
    rw [collect]
    generalize next a = bs at hfuel
    induction bs generalizing found with
    | nil => exact ⟨found, rfl⟩
    | cons b bs ihl =>
      rw [List.foldlM_cons]
      split
      · exact ihl found fun x hx => hfuel x (List.mem_cons_of_mem _ hx)
      · obtain ⟨mid, hmid⟩ := hfuel b List.mem_cons_self (found ++ [b])
        rw [hmid]
        exact ihl mid fun x hx => hfuel x (List.mem_cons_of_mem _ hx)

end Collect

end Rphp.Lib
