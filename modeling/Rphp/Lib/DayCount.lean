import Mathlib.Data.Int.Interval
import Mathlib.Data.Int.Order.Basic
import Mathlib.Data.Set.Card

namespace Rphp.Lib
set_option autoImplicit true

/-- Halves the interval until its ends are neighbours, and returns the lower end. -/
def bisect (p : Int → Bool) (low high : Int) : Int :=
  if low + 1 < high then
    if p (low + (high - low) / 2) then bisect p (low + (high - low) / 2) high
    else bisect p low (low + (high - low) / 2)
  else low
termination_by (high - low).toNat
decreasing_by all_goals omega

/-- From ends on either side of a change, the search stops right before a change. -/
theorem bisect_spec (p : Int → Bool) {low high : Int} (hlt : low < high) (hlow : p low = true)
    (hhigh : p high = false) :
    low ≤ bisect p low high ∧ bisect p low high < high ∧
      p (bisect p low high) = true ∧ p (bisect p low high + 1) = false := by
  induction low, high using bisect.induct p with
  | case1 low high hgap hmiddle ih =>
    obtain ⟨hle, hrest⟩ := ih (by omega) hmiddle hhigh
    rw [bisect, if_pos hgap, if_pos hmiddle]
    exact ⟨by omega, hrest⟩
  | case2 low high hgap hmiddle ih =>
    obtain ⟨hle, hend, hrest⟩ := ih (by omega) hlow (by simpa using hmiddle)
    rw [bisect, if_pos hgap, if_neg hmiddle]
    exact ⟨hle, by omega, hrest⟩
  | case3 low high hgap =>
    have hnext : high = low + 1 := by omega
    rw [bisect, if_neg hgap, ← hnext]
    exact ⟨le_rfl, hlt, hlow, hhigh⟩

/-- Where the start points increase, the search finds the segment that holds the point. -/
theorem bisect_starts {start : Int → Int} {low high : Int} (hlt : low < high)
    (hpoint : start low ≤ point ∧ point < start high) :
    low ≤ bisect (fun middle => start middle ≤ point) low high ∧
      bisect (fun middle => start middle ≤ point) low high < high ∧
      start (bisect (fun middle => start middle ≤ point) low high) ≤ point ∧
      point < start (bisect (fun middle => start middle ≤ point) low high + 1) := by
  obtain ⟨hle, hend, hp, hn⟩ := bisect_spec (fun middle => start middle ≤ point) hlt
    (by simpa using hpoint.1) (by simpa using hpoint.2)
  exact ⟨hle, hend, by simpa using hp, by simpa using hn⟩

/-! Days counted through segments of given sizes: years of a calendar, months of a year. -/

/-- The first key whose segment reaches past the offset, with the offset inside it. -/
def locate (size : κ → Int) : List κ → Int → Option (κ × Int)
  | [], _ => none
  | key :: keys, offset =>
    if offset < size key then some (key, offset) else locate size keys (offset - size key)

/-- The total size of the segments. -/
def totalSize (size : κ → Int) (keys : List κ) : Int := (keys.map size).sum

@[simp] theorem totalSize_nil (size : κ → Int) : totalSize size [] = 0 := rfl

@[simp] theorem totalSize_cons (size : κ → Int) (key : κ) (keys : List κ) :
    totalSize size (key :: keys) = size key + totalSize size keys := by
  simp [totalSize]

theorem totalSize_append (size : κ → Int) (before after : List κ) :
    totalSize size (before ++ after) = totalSize size before + totalSize size after := by
  simp [totalSize]

/-- What is found lies behind the segments in front of it and inside its own. -/
theorem locate_eq_some {keys : List κ} (h : locate size keys offset = some (key, rest))
    (hoffset : 0 ≤ offset) :
    ∃ before after, keys = before ++ key :: after ∧ offset = totalSize size before + rest ∧
      0 ≤ rest ∧ rest < size key := by
  induction keys generalizing offset with
  | nil => cases h
  | cons head keys ih =>
    rw [locate] at h
    split at h
    · rename_i hlt
      cases h
      exact ⟨[], keys, rfl, by simp, hoffset, hlt⟩
    · rename_i hge
      obtain ⟨before, after, rfl, heq, hrest⟩ := ih h (by omega)
      refine ⟨head :: before, after, rfl, ?_, hrest⟩
      rw [totalSize_cons]
      omega

theorem locate_isSome {keys : List κ} (hoffset : 0 ≤ offset) (h : offset < totalSize size keys) :
    (locate size keys offset).isSome := by
  induction keys generalizing offset with
  | nil => exact absurd h (by rw [totalSize_nil]; omega)
  | cons head keys ih =>
    rw [totalSize_cons] at h
    rw [locate]
    split
    · rfl
    · exact ih (by omega) (by omega)

theorem totalSize_nonneg {keys : List κ} (hsize : ∀ key ∈ keys, 0 ≤ size key) :
    0 ≤ totalSize size keys := by
  induction keys with
  | nil => exact le_rfl
  | cons head keys ih =>
    have hhead := hsize head List.mem_cons_self
    have htail := ih fun key hkey => hsize key (List.mem_cons_of_mem _ hkey)
    rw [totalSize_cons]
    omega

/-- An offset inside a segment is found there when no segment has a negative size. -/
theorem locate_total {before after : List κ} (hsize : ∀ key ∈ before, 0 ≤ size key)
    (hrest : 0 ≤ rest) (hlt : rest < size key) :
    locate size (before ++ key :: after) (totalSize size before + rest) = some (key, rest) := by
  induction before with
  | nil => simp [locate, hlt]
  | cons head before ih =>
    have htotal : 0 ≤ totalSize size before :=
      totalSize_nonneg fun k hk => hsize k (List.mem_cons_of_mem _ hk)
    have hnot : ¬ size head + totalSize size before + rest < size head := by omega
    have hsub : size head + totalSize size before + rest - size head = totalSize size before + rest := by
      omega
    rw [List.cons_append, locate, totalSize_cons, if_neg hnot, hsub]
    exact ih fun k hk => hsize k (List.mem_cons_of_mem _ hk)

/-- The numbers from one to the one in front of a number. -/
def numbersBelow (last : Int) : List Int :=
  (List.range (last - 1).toNat).map fun (index : Nat) => (index : Int) + 1

theorem mem_numbersBelow {number last : Int} :
    number ∈ numbersBelow last ↔ 1 ≤ number ∧ number < last := by
  constructor
  · intro h
    obtain ⟨index, hindex, rfl⟩ := List.mem_map.mp h
    rw [List.mem_range] at hindex
    omega
  · intro h
    exact List.mem_map.mpr ⟨(number - 1).toNat, List.mem_range.mpr (by omega), by omega⟩

theorem numbersBelow_succ {number : Int} (h : 1 ≤ number) :
    numbersBelow (number + 1) = numbersBelow number ++ [number] := by
  have hcount : (number + 1 - 1).toNat = (number - 1).toNat + 1 := by omega
  have hlast : ((number - 1).toNat : Int) + 1 = number := by omega
  rw [numbersBelow, hcount, List.range_succ, List.map_append, List.map_singleton, hlast]
  rfl

theorem numbersBelow_split {number last : Int} (h : 1 ≤ number ∧ number < last) :
    ∃ after, numbersBelow last = numbersBelow number ++ number :: after := by
  obtain ⟨hlow, hhigh⟩ := h
  induction last, hhigh using Int.leInduction with
  | base => exact ⟨[], numbersBelow_succ hlow⟩
  | succ last hle ih =>
    obtain ⟨after, hafter⟩ := ih
    refine ⟨after ++ [last], ?_⟩
    rw [numbersBelow_succ (by omega), hafter, List.append_assoc, List.cons_append]

/-- A number determines what lies in front of it. -/
theorem eq_numbersBelow {number last : Int}
    (h : numbersBelow last = before ++ number :: after) :
    before = numbersBelow number ∧ 1 ≤ number ∧ number < last := by
  have hrange : 1 ≤ number ∧ number < last := by
    rw [← mem_numbersBelow, h]
    simp
  obtain ⟨behind, hbehind⟩ := numbersBelow_split hrange
  have hnodup : (numbersBelow last).Nodup := by
    apply List.Nodup.map _ List.nodup_range
    intro i j hij
    simp only at hij
    omega
  rw [h] at hbehind hnodup
  obtain ⟨-, hafter, hdisjoint⟩ := List.nodup_append.mp hnodup
  have hbefore : number ∉ before :=
    fun hmem => hdisjoint number hmem number List.mem_cons_self rfl
  have hnumber := (List.append_cons_inj_of_notMem hbefore (List.nodup_cons.mp hafter).1).mp hbehind
  exact ⟨hnumber.1, hrange⟩

theorem ncard_days (start stop : Int) :
    {day : Int | start ≤ day ∧ day < stop}.ncard = (stop - start).toNat := by
  have hset : {day : Int | start ≤ day ∧ day < stop} = ↑(Finset.Ico start stop) := by
    ext day
    simp
  rw [hset, Set.ncard_coe_finset, Int.card_Ico]

end Rphp.Lib
