import Rphp.Stdlib.Sort.UserSortRun

namespace Rphp.Stdlib.Sort
open Rphp.Lib Rphp.Vm
set_option autoImplicit true

/-! Sorting with a callback that the sort may run by its compiled plan. -/

variable {cmp : α → α → Ordering} {longs : Longs α}

/-- A callback respects an order if what it returns tells it: from a call, and from its plan. -/
structure Respects (longs : Longs α) (resolved : ResolvedCallback α ε σ)
    (cmp : α → α → Ordering) : Prop where
  calls : CallsTell resolved.call cmp
  plan : ∀ callback, prepareScalarLongCallback resolved.function 2 = some callback →
    ∀ left right n, callback.evaluateLongs [left, right] = some n →
      Ord.compare n.val 0 = cmp (longs.long left) (longs.long right)

section Orders

theorem i64_bounds : i64Min = -9223372036854775808 ∧ i64Max = 9223372036854775807 := ⟨rfl, rfl⟩

variable [Std.TransCmp cmp] {f : I64 → α}

/-- Zero and minus one lie between integers that are too far apart for their difference. -/
theorem gt_of_far (h : ∀ x y : I64, i64Min ≤ x.val - y.val → x.val - y.val ≤ i64Max →
      cmp (f x) (f y) = Ord.compare x.val y.val) (x y : I64) (hfar : i64Max < x.val - y.val) :
    cmp (f x) (f y) = .gt := by
  obtain ⟨hmin, hmax⟩ := i64_bounds
  have hx := x.inRange
  have hy := y.inRange
  have hone : (I64.wrap (-1)).val = -1 := rfl
  have hzero : I64.zero.val = 0 := rfl
  have hfront : (cmp (f x) (f .zero)).isGE := by
    rw [h x .zero (by omega) (by omega), Int.isGE_compare]
    omega
  have hmiddle : cmp (f .zero) (f (.wrap (-1))) = .gt := h _ _ (by decide) (by decide)
  have hback : (cmp (f (.wrap (-1))) (f y)).isGE := by
    rw [h (.wrap (-1)) y (by omega) (by omega), Int.isGE_compare]
    omega
  exact Std.TransCmp.gt_of_isGE_of_gt hfront (Std.TransCmp.gt_of_gt_of_isGE hmiddle hback)

/-- An order that is the usual one where the difference is an integer is the usual one. -/
theorem compare_of_near (h : ∀ x y : I64, i64Min ≤ x.val - y.val → x.val - y.val ≤ i64Max →
      cmp (f x) (f y) = Ord.compare x.val y.val) (x y : I64) :
    cmp (f x) (f y) = Ord.compare x.val y.val := by
  obtain ⟨hmin, hmax⟩ := i64_bounds
  by_cases hhigh : x.val - y.val ≤ i64Max
  · by_cases hlow : i64Min ≤ x.val - y.val
    · exact h x y hlow hhigh
    · have hswap : cmp (f x) (f y) = (cmp (f y) (f x)).swap := Std.OrientedCmp.eq_swap
      rw [hswap, gt_of_far h y x (by omega)]
      exact (Int.compare_eq_lt.mpr (by omega)).symm
  · rw [gt_of_far h x y (by omega)]
    exact (Int.compare_eq_gt.mpr (by omega)).symm

end Orders

section Sorts

theorem Longs.asLong_long (longs : Longs α) (n : I64) : longs.asLong (longs.long n) = some n :=
  longs.asLong_eq_some.mpr rfl

theorem mergeSort_congr {le le' : α → α → Bool} {l : List α}
    (h : ∀ a ∈ l, ∀ b ∈ l, le a b = le' a b) : l.mergeSort le = l.mergeSort le' := by
  have hmap := List.map_mergeSort (f := id) h
  rwa [List.map_id, List.map_id] at hmap

variable {resolved : ResolvedCallback α ε σ}

theorem Respects.evaluated_answers (h : Respects longs resolved cmp)
    (hprepare : prepareScalarLongCallback resolved.function 2 = some callback) :
    Answers (evaluated longs callback : UserCompare α ε' σ') cmp := by
  rintro a b world ordering hordering
  simp only [Option.map_eq_some_iff, Option.bind_eq_bind, Option.bind_eq_some_iff] at hordering
  obtain ⟨n, ⟨left, hleft, right, hright, hn⟩, rfl⟩ := hordering
  rw [longs.asLong_eq_some.mp hleft, longs.asLong_eq_some.mp hright]
  exact h.plan callback hprepare left right n hn

variable [Std.TransCmp cmp]

/-- An exact order of the plan is the order that the callback respects, of all integers. -/
theorem Respects.exactSortOrder (h : Respects longs resolved cmp)
    (hprepare : prepareScalarLongCallback resolved.function 2 = some callback)
    (horder : callback.exactSortOrder = some order) (left right : I64) :
    order.compare left right = cmp (longs.long left) (longs.long right) := by
  obtain ⟨kind, hkind, hevaluate⟩ := evaluateLongs_of_exactSortOrder horder
    (prepareScalarLongCallback_publicNumArgs hprepare)
  have hplan := h.plan callback hprepare
  cases order with
  | ascending =>
    refine (compare_of_near (fun x y hlow hhigh => ?_) left right).symm
    obtain ⟨n, hn, htells⟩ := applyScalarLongOp_tells hkind x y hlow hhigh
    rw [← hplan x y n ((hevaluate x y).trans hn), htells]
  | descending =>
    have hturned := @compare_of_near _ (fun a b => cmp b a) inferInstance longs.long
      (fun x y hlow hhigh => by
        obtain ⟨n, hn, htells⟩ := applyScalarLongOp_tells hkind x y hlow hhigh
        rw [← hplan y x n ((hevaluate y x).trans hn), htells]) right left
    rw [ScalarLongSortOrder.compare_eq]
    exact hturned.symm

/-- The sort by the plan of the callback is the stable one, where it comes to an end. -/
theorem tryUsortScalarLong_stable (h : Respects longs resolved cmp) (table : Table α σ') :
    Post (fun done t => done = .ok true → t.entries = table.entries.mergeSort (mayPrecede cmp))
      (fun e _ => ∃ error, e = .raised error)
      (tryUsortScalarLong longs resolved table :
        EStateM.Result (Stop ε') (Table α σ') (Except Unit Bool)) := by
  have hdeclined (hfalse : (Except.ok false : Except Unit Bool) = .ok true) :
      table.entries = table.entries.mergeSort (mayPrecede cmp) := by cases hfalse
  unfold tryUsortScalarLong
  split
  · exact hdeclined
  · cases hprepare : prepareScalarLongCallback resolved.function 2 with
    | none => exact hdeclined
    | some callback =>
      simp only
      split
      · exact hdeclined
      · rename_i hlongs
        cases horder : callback.exactSortOrder with
        | some order =>
          intro _
          apply mergeSort_congr
          have hlong (a : α) (ha : a ∈ table.entries) : ∃ n, longs.asLong a = some n := by
            rw [← Option.isSome_iff_exists, ← Option.not_isNone, Bool.not_eq_true']
            exact Bool.eq_false_iff.mpr fun hnone => hlongs (List.any_eq_true.mpr ⟨a, ha, hnone⟩)
          intro a ha b hb
          obtain ⟨left, hleft⟩ := hlong a ha
          obtain ⟨right, hright⟩ := hlong b hb
          rw [longs.asLong_eq_some.mp hleft, longs.asLong_eq_some.mp hright]
          simp only [mayPrecede, rawCompare, longs.asLong_long, Option.getD_some,
            h.exactSortOrder hprepare horder]
        | none =>
          have hanswers : Answers (evaluated longs callback : UserCompare α ε' σ') cmp :=
            h.evaluated_answers hprepare
          have hsorted := sortLarge_stable hanswers table
          simp only
          cases hrun : completed (sortLarge (evaluated longs callback)) table with
          | ok complete t =>
            rw [hrun] at hsorted
            cases complete with
            | true => exact fun _ => hsorted rfl
            | false => exact fun hfalse => by cases hfalse
          | error e t =>
            rw [hrun] at hsorted
            exact hsorted

/-- A callback that returns a boolean sorts as one that returns a number, and one that the sort
runs by its plan as one that is called. -/
theorem usort_callback_stable (h : Respects longs resolved cmp)
    (reportDeprecation : EStateM ε σ Bool) (table : Table α (Script σ)) :
    Post (fun complete t => t.entries =
        if complete then table.entries.mergeSort (mayPrecede cmp) else table.entries)
      (fun e t => (∃ error, e = .raised error) ∧ t.entries = table.entries)
      (usort longs reportDeprecation resolved table) := by
  have hscalar : Post _ _ (tryUsortScalarLong longs resolved table :
      EStateM.Result (Stop ε) (Table α (Script σ)) (Except Unit Bool)) :=
    tryUsortScalarLong_stable h table
  have hcanonical := usortCanonical_stable
    (userSortComparison_answers h.calls reportDeprecation) table
  unfold usort
  cases hrun : tryUsortScalarLong longs resolved table with
  | ok done t =>
    rw [hrun] at hscalar
    cases done with
    | ok done =>
      cases done with
      | true => exact hscalar rfl
      | false => exact hcanonical
    | error _ => exact hcanonical
  | error e t =>
    rw [hrun] at hscalar
    exact ⟨hscalar, rfl⟩

/-- Where all values are integers. -/
def allLongs : Longs I64 where
  long n := n
  asLong n := some n
  asLong_eq_some := Option.some_inj

/-- `$a <=> $b`, of which a call counts. -/
def spaceship : ResolvedCallback I64 Empty Nat where
  prependArgs := []
  useVars := []
  hasContext := false
  closureStaticVars := false
  function := some ⟨true, true, 2,
    some ⟨2, ⟨[⟨.compare, .input 0, .input 1⟩], .temporary 0, 1⟩, none⟩⟩
  call left right calls :=
    .ok ((applyScalarLongOp .compare left right).map fun n => .other n.val) (calls + 1)

theorem spaceship_tells (h : applyScalarLongOp .compare left right = some n) :
    Ord.compare n.val 0 = Ord.compare left.val right.val := by
  obtain ⟨m, hm, htells⟩ := applyScalarLongOp_compare left right
  rwa [Option.some.inj (hm.symm.trans h)] at htells

theorem spaceship_respects : Respects allLongs spaceship (compareOn I64.val) where
  calls := by
    intro left right calls r hr
    obtain ⟨n, hn, rfl⟩ := Option.map_eq_some_iff.mp hr
    exact spaceship_tells hn
  plan := by
    rintro callback ⟨⟩ left right n hn
    exact spaceship_tells hn

/-- `$a > $b`, which has no plan. -/
def greater : ResolvedCallback I64 Empty Nat where
  prependArgs := []
  useVars := []
  hasContext := false
  closureStaticVars := false
  function := none
  call left right calls := .ok (some (if right.val < left.val then .true else .false)) (calls + 1)

theorem greater_respects : Respects allLongs greater (compareOn I64.val) where
  calls := by
    rintro left right calls r ⟨⟩
    by_cases hlt : right.val < left.val
    · rw [if_pos hlt]
      exact Int.compare_eq_gt.mpr hlt
    · rw [if_neg hlt]
      exact fun hgt => hlt (Int.compare_eq_gt.mp hgt)
  plan := by
    rintro callback ⟨⟩

/-- Three integers by the plan of a callback, and by calls of another. -/
theorem usort_callback_stable_three :
    Post (fun complete (t : Table I64 (Script Nat)) => t.entries =
        if complete then [I64.max, .zero, .min].mergeSort (mayPrecede (compareOn I64.val))
        else [.max, .zero, .min])
      (fun e t => (∃ error, e = .raised error) ∧ t.entries = [.max, .zero, .min])
      (usort allLongs (fun w => .ok false w) spaceship ⟨[.max, .zero, .min], ⟨false, 0⟩⟩) ∧
    Post (fun complete (t : Table I64 (Script Nat)) => t.entries =
        if complete then [I64.max, .zero, .min].mergeSort (mayPrecede (compareOn I64.val))
        else [.max, .zero, .min])
      (fun e t => (∃ error, e = .raised error) ∧ t.entries = [.max, .zero, .min])
      (usort allLongs (fun w => .ok false w) greater ⟨[.max, .zero, .min], ⟨false, 0⟩⟩) where
  left := usort_callback_stable spaceship_respects (fun w => .ok false w) ⟨[.max, .zero, .min], _⟩
  right := usort_callback_stable greater_respects (fun w => .ok false w) ⟨[.max, .zero, .min], _⟩

end Sorts

end Rphp.Stdlib.Sort
