import Mathlib.Algebra.Order.Group.Unbundled.Int
import Mathlib.Data.List.TakeWhile
import Mathlib.Order.Interval.Set.Defs
import Mathlib.Order.Lattice

namespace Rphp.Lib
set_option autoImplicit true

/-! A function of time that changes at finitely many instants, each with the state behind it. -/

section StepFunction

variable {τ : Type} [LinearOrder τ] {time : α → τ} {breaks : List α} {begin stop x y : τ}

/-- The changes up to an instant. -/
def changesUpTo (time : α → τ) (breaks : List α) (x : τ) : List α :=
  breaks.takeWhile fun change => time change ≤ x

/-- The state that the last change up to an instant selects. -/
def stateAfter (state : α → σ) (initial : σ) (changes : List α) : σ :=
  (changes.getLast?.map state).getD initial

def stepAt (time : α → τ) (state : α → σ) (initial : σ) (breaks : List α) (x : τ) : σ :=
  stateAfter state initial (changesUpTo time breaks x)

theorem stateAfter_append (state : α → σ) (initial : σ) (before after : List α) :
    stateAfter state initial (before ++ after) =
      stateAfter state (stateAfter state initial before) after := by
  unfold stateAfter
  rw [List.getLast?_append]
  cases after.getLast? with
  | none => rfl
  | some change => rfl

theorem changesUpTo_eq_filter (hsorted : breaks.Pairwise (time · < time ·)) (x : τ) :
    changesUpTo time breaks x = breaks.filter fun change => time change ≤ x := by
  induction breaks with
  | nil => rfl
  | cons change breaks ih =>
    obtain ⟨hhead, htail⟩ := List.pairwise_cons.mp hsorted
    have hrest := ih htail
    unfold changesUpTo at hrest ⊢
    by_cases hle : time change ≤ x
    · rw [List.takeWhile_cons_of_pos (by simpa using hle),
        List.filter_cons_of_pos (by simpa using hle), hrest]
    · rw [List.takeWhile_cons_of_neg (by simpa using hle),
        List.filter_cons_of_neg (by simpa using hle)]
      symm
      rw [List.filter_eq_nil_iff]
      intro other hother hlate
      have hlt := hhead other hother
      exact hle (hlt.le.trans (by simpa using hlate))

/-- Nothing changes between the last change and the instant. -/
theorem changesUpTo_eq (hsorted : breaks.Pairwise (time · < time ·))
    (hlast : ∀ change ∈ changesUpTo time breaks x, time change ≤ y) (hle : y ≤ x) :
    changesUpTo time breaks y = changesUpTo time breaks x := by
  rw [changesUpTo_eq_filter hsorted] at hlast ⊢
  rw [changesUpTo_eq_filter hsorted]
  apply List.filter_congr
  intro change hchange
  rw [decide_eq_decide]
  constructor
  · intro hearly
    exact hearly.trans hle
  · intro hearly
    exact hlast change (List.mem_filter.mpr ⟨hchange, by simpa using hearly⟩)

/-- The last change is the latest one. -/
theorem time_le_getLast (hsorted : breaks.Pairwise (time · < time ·))
    (hlast : (changesUpTo time breaks x).getLast? = some last) :
    ∀ change ∈ changesUpTo time breaks x, time change ≤ time last := by
  have hsub : (changesUpTo time breaks x).Pairwise (time · < time ·) :=
    hsorted.sublist (List.takeWhile_sublist _)
  obtain ⟨front, hfront⟩ := List.getLast?_eq_some_iff.mp hlast
  rw [hfront] at hsub ⊢
  intro change hchange
  obtain hmem | hmem := List.mem_append.mp hchange
  · exact ((List.pairwise_append.mp hsub).2.2 change hmem last List.mem_cons_self).le
  · rw [List.mem_singleton.mp hmem]

theorem getLast_time_le (hlast : (changesUpTo time breaks x).getLast? = some last) :
    time last ≤ x ∧ last ∈ breaks := by
  have hmem := List.mem_of_getLast? hlast
  exact ⟨by simpa using List.mem_takeWhile_imp hmem, (List.takeWhile_sublist _).subset hmem⟩

/-- The changes strictly inside a window, with the end left out. -/
def changesInside (time : α → τ) (breaks : List α) (begin stop : τ) : List α :=
  (breaks.dropWhile fun change => time change ≤ begin).takeWhile fun change => time change < stop

theorem changesUpTo_window (hbegin : begin ≤ x) (hstop : x < stop) :
    changesUpTo time breaks x =
      changesUpTo time breaks begin ++
        changesUpTo time (changesInside time breaks begin stop) x := by
  induction breaks with
  | nil => rfl
  | cons change breaks ih =>
    unfold changesUpTo changesInside at *
    by_cases hearly : time change ≤ begin
    · rw [List.takeWhile_cons_of_pos (by simpa using hearly.trans hbegin),
        List.takeWhile_cons_of_pos (by simpa using hearly),
        List.dropWhile_cons_of_pos (by simpa using hearly), ih, List.cons_append]
    · rw [List.takeWhile_cons_of_neg (p := fun c => decide (time c ≤ begin))
          (by simpa using hearly),
        List.dropWhile_cons_of_neg (by simpa using hearly), List.nil_append,
        List.takeWhile_takeWhile]
      congr 1
      funext other
      rw [Bool.decide_and, Bool.eq_iff_iff]
      simp only [Bool.and_eq_true, decide_eq_true_eq]
      exact ⟨fun h => ⟨h, h.trans_lt hstop⟩, fun h => h.1⟩

theorem time_changesInside (hsorted : breaks.Pairwise (time · < time ·))
    (hchange : change ∈ changesInside time breaks begin stop) :
    begin < time change ∧ time change < stop ∧ change ∈ breaks := by
  have hdrop := (List.takeWhile_sublist _).subset hchange
  refine ⟨?_, by simpa using List.mem_takeWhile_imp hchange,
    (List.dropWhile_sublist _).subset hdrop⟩
  clear hchange
  induction breaks with
  | nil => cases hdrop
  | cons head breaks ih =>
    obtain ⟨hhead, htail⟩ := List.pairwise_cons.mp hsorted
    by_cases hearly : time head ≤ begin
    · rw [List.dropWhile_cons_of_pos (by simpa using hearly)] at hdrop
      exact ih htail hdrop
    · rw [List.dropWhile_cons_of_neg (by simpa using hearly)] at hdrop
      cases hdrop with
      | head => exact not_le.mp hearly
      | tail _ hmem => exact (not_le.mp hearly).trans (hhead change hmem)

/-- Inside a window the state is that of the last change inside it, or the one at its start. -/
theorem stepAt_window (state : α → σ) (initial : σ) (hbegin : begin ≤ x) (hstop : x < stop) :
    stepAt time state initial breaks x =
      stateAfter state (stepAt time state initial breaks begin)
        (changesUpTo time (changesInside time breaks begin stop) x) := by
  unfold stepAt
  rw [changesUpTo_window hbegin hstop, stateAfter_append]

/-- Between the last change up to an instant and the instant the state stays. -/
theorem stepAt_eq (hsorted : breaks.Pairwise (time · < time ·)) (state : α → σ) (initial : σ)
    (hlast : ∀ change ∈ changesUpTo time breaks x, time change ≤ y) (hle : y ≤ x) :
    stepAt time state initial breaks y = stepAt time state initial breaks x := by
  unfold stepAt
  rw [changesUpTo_eq hsorted hlast hle]

/-- A change takes effect at its own instant. -/
theorem stepAt_time (hsorted : breaks.Pairwise (time · < time ·)) (hchange : change ∈ breaks)
    (state : α → σ) (initial : σ) :
    stepAt time state initial breaks (time change) = state change := by
  have hfilter := changesUpTo_eq_filter hsorted (time change)
  obtain ⟨front, back, rfl⟩ := List.append_of_mem hchange
  obtain ⟨-, hback, hfront⟩ := List.pairwise_append.mp hsorted
  have hlater := (List.pairwise_cons.mp hback).1
  have hbefore : front.filter (fun other => time other ≤ time change) = front := by
    rw [List.filter_eq_self]
    intro other hother
    simpa using (hfront other hother change List.mem_cons_self).le
  have hafter : back.filter (fun other => time other ≤ time change) = [] := by
    rw [List.filter_eq_nil_iff]
    intro other hother
    simpa using hlater other hother
  rw [List.filter_append, List.filter_cons_of_pos (by simp), hbefore, hafter] at hfilter
  rw [stepAt, hfilter, stateAfter, List.getLast?_concat]
  rfl

end StepFunction

/-! Clocks that show an instant plus an offset, where the offset changes from time to time. -/

variable {offset : Int → Int}

def ChangesAt (offset : Int → Int) (t : Int) : Prop := offset (t - 1) ≠ offset t

/-- No two changes are in a window, which is open at its start. -/
def ChangesOnce (offset : Int → Int) (a b : Int) : Prop :=
  ∀ s t, a < s → s < t → t ≤ b → ChangesAt offset s → ¬ ChangesAt offset t

/-- An instant for what a clock shows: the smallest that shows it, or, when the clock jumps over it,
the one for the offset in front of the jump. -/
structure Resolves (offset : Int → Int) (shown u : Int) : Prop where
  earliest : ∀ v, v + offset v = shown → u + offset u = shown ∧ u ≤ v
  jump : (∀ v, v + offset v ≠ shown) →
    ∃ t, t + offset (t - 1) ≤ shown ∧ shown < t + offset t ∧ u = shown - offset (t - 1)

/-- Without a change the offset stays. -/
theorem offset_eq (hab : a ≤ b) (h : ∀ t, a < t → t ≤ b → ¬ ChangesAt offset t) :
    offset a = offset b := by
  induction b, hab using Int.leInduction with
  | base => rfl
  | succ b hab ih =>
    have hlast := h (b + 1) (by omega) (Int.le_refl _)
    rw [ChangesAt, Int.add_sub_cancel, not_not] at hlast
    rw [ih fun t hat htb => h t hat (by omega), hlast]

/-- A window with one change at most has the offset of its start or that of its end. -/
theorem window_cases (hone : ChangesOnce offset a b) :
    (∀ x, a ≤ x → x ≤ b → offset x = offset a ∧ offset x = offset b) ∨
      ∃ t, a < t ∧ t ≤ b ∧ (∀ x, a ≤ x → x < t → offset x = offset a) ∧
        ∀ x, t ≤ x → x ≤ b → offset x = offset b := by
  by_cases hchange : ∃ t, a < t ∧ t ≤ b ∧ ChangesAt offset t
  · obtain ⟨t, hat, htb, ht⟩ := hchange
    refine .inr ⟨t, hat, htb, fun x hax hxt => ?_, fun x htx hxb => ?_⟩
    · exact (offset_eq hax fun s has hsx hs => hone s t has (by omega) htb hs ht).symm
    · exact offset_eq hxb fun s hxs hsb hs => hone t s hat (by omega) hsb ht hs
  · refine .inl fun x hax hxb => ⟨(offset_eq hax fun s has hsx hs => ?_).symm,
      offset_eq hxb fun s hxs hsb hs => ?_⟩
    · exact hchange ⟨s, has, by omega, hs⟩
    · exact hchange ⟨s, by omega, hsb, hs⟩

section Probes

variable {D shown : Int}

/-- The offset of an instant that shows the time is in force a bound before or after that time. -/
theorem offset_probed (hbound : ∀ x, -D < offset x ∧ offset x < D)
    (hone : ChangesOnce offset (shown - D) (shown + D)) (hu : u + offset u = shown) :
    offset u = offset (shown - D) ∨ offset u = offset (shown + D) := by
  have hboundU := hbound u
  rcases window_cases hone with hconstant | ⟨t, -, -, hbefore, hafter⟩
  · exact .inl (hconstant u (by omega) (by omega)).1
  · rcases lt_or_ge u t with h | h
    · exact .inl (hbefore u (by omega) h)
    · exact .inr (hafter u h (by omega))

/-- A time that no instant shows is jumped over between the two probes. -/
theorem jump_between (hbound : ∀ x, -D < offset x ∧ offset x < D)
    (hone : ChangesOnce offset (shown - D) (shown + D)) (hnone : ∀ v, v + offset v ≠ shown) :
    ∃ t, t + offset (t - 1) ≤ shown ∧ shown < t + offset t ∧
      offset (t - 1) = offset (shown - D) ∧
      ∀ x, shown - D ≤ x → x ≤ shown + D → offset (t - 1) ≤ offset x := by
  have hlow := hbound (shown - D)
  have hhigh := hbound (shown + D)
  rcases window_cases hone with hconstant | ⟨t, hat, htb, hbefore, hafter⟩
  · have hsame := (hconstant (shown - offset (shown - D)) (by omega) (by omega)).1
    exact absurd (by omega) (hnone (shown - offset (shown - D)))
  · have hfirst : offset (t - 1) = offset (shown - D) := hbefore (t - 1) (by omega) (by omega)
    have hsecond : offset t = offset (shown + D) := hafter t (Int.le_refl t) htb
    have hlate : t ≤ shown - offset (shown - D) := by
      by_contra h
      have hsame := hbefore (shown - offset (shown - D)) (by omega) (by omega)
      exact hnone (shown - offset (shown - D)) (by omega)
    have hearly : shown - offset (shown + D) < t := by
      by_contra h
      have hsame := hafter (shown - offset (shown + D)) (by omega) (by omega)
      exact hnone (shown - offset (shown + D)) (by omega)
    refine ⟨t, by omega, by omega, hfirst, fun x hax hxb => ?_⟩
    rcases lt_or_ge x t with h | h
    · rw [hfirst, hbefore x hax h]
    · rw [hafter x h hxb]
      omega

end Probes

end Rphp.Lib
