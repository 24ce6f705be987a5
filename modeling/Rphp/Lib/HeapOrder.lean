import Mathlib.Data.List.Basic
import Mathlib.Data.List.Perm.Basic

namespace Rphp.Lib
set_option autoImplicit true

/-- Every element of the binary tree laid out in the list is at or above its children. -/
def HeapOrdered (ge : α → α → Prop) (l : List α) : Prop :=
  ∀ i a b, 0 < i → l[(i - 1) / 2]? = some a → l[i]? = some b → ge a b

/-- The element above the hole is at or above the elements below it. -/
def Spans (ge : α → α → Prop) (l : List α) (hole : Nat) : Prop :=
  0 < hole → ∀ i a b, 0 < i → (i - 1) / 2 = hole → l[(hole - 1) / 2]? = some a →
    l[i]? = some b → ge a b

/-- Only the element in the hole may be above its parent. -/
structure UpOrdered (ge : α → α → Prop) (l : List α) (hole : Nat) : Prop where
  ordered : ∀ i a b, 0 < i → i ≠ hole → l[(i - 1) / 2]? = some a → l[i]? = some b → ge a b
  spans : Spans ge l hole

/-- Only the element in the hole may be below its children. -/
structure DownOrdered (ge : α → α → Prop) (l : List α) (hole : Nat) : Prop where
  ordered : ∀ i a b, 0 < i → (i - 1) / 2 ≠ hole → l[(i - 1) / 2]? = some a → l[i]? = some b → ge a b
  spans : Spans ge l hole

/-- Two elements of a list in each other's place. -/
def exchange (l : List α) (i j : Nat) (a b : α) : List α := (l.set i b).set j a

theorem getElem?_exchange {l : List α} (hi : l[i]? = some a) (hj : l[j]? = some b) (k : Nat) :
    (exchange l i j a b)[k]? = if k = j then some a else if k = i then some b else l[k]? := by
  have hi := (List.getElem?_eq_some_iff.1 hi).1
  have hj := (List.getElem?_eq_some_iff.1 hj).1
  simp only [exchange, List.getElem?_set, List.length_set, hi, hj, if_true]
  simp only [eq_comm]

theorem exchange_perm {l : List α} (hi : l[i]? = some a) (hj : l[j]? = some b) :
    (exchange l i j a b).Perm l := by
  obtain ⟨hilt, rfl⟩ := List.getElem?_eq_some_iff.1 hi
  obtain ⟨hjlt, rfl⟩ := List.getElem?_eq_some_iff.1 hj
  exact List.set_set_perm hilt hjlt

variable {ge : α → α → Prop} {l : List α} {hole i : Nat} {a b x w : α}

theorem HeapOrdered.mono (h : HeapOrdered ge l)
    (hge : ∀ a ∈ l, ∀ b ∈ l, ge a b → ge' a b) : HeapOrdered ge' l := by
  intro i a b hi ha hb
  exact hge a (List.mem_of_getElem? ha) b (List.mem_of_getElem? hb) (h i a b hi ha hb)

theorem HeapOrdered.append (h : HeapOrdered ge l) (x : α) : UpOrdered ge (l ++ [x]) l.length where
  ordered i a b hi hne ha hb := by
    have hlt : i < l.length := by
      have := (List.getElem?_eq_some_iff.1 hb).1
      simp only [List.length_append, List.length_singleton] at this
      omega
    rw [List.getElem?_append_left (by omega)] at ha hb
    exact h i a b hi ha hb
  spans _ i a b _ hp _ hb := by
    have := (List.getElem?_eq_some_iff.1 hb).1
    simp only [List.length_append, List.length_singleton] at this
    omega

/-- The element in the hole is above its parent and takes its place. -/
theorem UpOrdered.move (h : UpOrdered ge l hole) (trans : ∀ a b c, ge a b → ge b c → ge a c)
    (hpos : 0 < hole) (hx : l[hole]? = some x) (ha : l[(hole - 1) / 2]? = some a) (hxa : ge x a) :
    UpOrdered ge (exchange l hole ((hole - 1) / 2) x a) ((hole - 1) / 2) where
  ordered i p q hi hne hp hq := by
    have hlt : (hole - 1) / 2 < hole := by omega
    rw [getElem?_exchange hx ha] at hp hq
    rw [if_neg hne] at hq
    by_cases hih : i = hole
    · subst hih
      rw [if_pos rfl] at hp hq
      cases hp
      cases hq
      exact hxa
    · rw [if_neg hih] at hq
      split at hp
      · rename_i hpar
        cases hp
        exact trans _ _ _ hxa (h.ordered i a q hi hih (hpar ▸ ha) hq)
      · split at hp
        · rename_i hpar
          cases hp
          exact h.spans hpos i a q hi hpar ha hq
        · exact h.ordered i p q hi hih hp hq
  spans hpp i p q hi hpar hp hq := by
    rw [getElem?_exchange hx ha] at hp hq
    rw [if_neg (by omega), if_neg (by omega)] at hp
    have hpa := h.ordered _ p a hpp (by omega) hp ha
    rw [if_neg (by omega)] at hq
    split at hq
    · cases hq
      exact hpa
    · rename_i hih
      exact trans _ _ _ hpa (h.ordered i a q hi hih (hpar ▸ ha) hq)

theorem UpOrdered.finish (h : UpOrdered ge l hole)
    (hstop : 0 < hole → ∀ a x, l[(hole - 1) / 2]? = some a → l[hole]? = some x → ge a x) :
    HeapOrdered ge l := by
  intro i a b hi ha hb
  by_cases hih : i = hole
  · subst hih
    exact hstop hi a b ha hb
  · exact h.ordered i a b hi hih ha hb

/-- The greatest of the elements below the hole takes the place of the one in it. -/
theorem DownOrdered.move (h : DownOrdered ge l hole) (hx : l[hole]? = some x)
    (hpos : 0 < i) (hpar : (i - 1) / 2 = hole) (hw : l[i]? = some w) (hwx : ge w x)
    (hmax : ∀ j b, 0 < j → (j - 1) / 2 = hole → l[j]? = some b → ge w b) :
    DownOrdered ge (exchange l hole i x w) i where
  ordered j p q hj hne hp hq := by
    rw [getElem?_exchange hx hw] at hp hq
    rw [if_neg hne] at hp
    by_cases hjp : (j - 1) / 2 = hole
    · rw [if_pos hjp] at hp
      cases hp
      by_cases hji : j = i
      · rw [if_pos hji] at hq
        cases hq
        exact hwx
      · rw [if_neg hji, if_neg (by omega)] at hq
        exact hmax j q hj hjp hq
    · rw [if_neg hjp] at hp
      by_cases hjh : j = hole
      · subst hjh
        rw [if_neg (by omega), if_pos rfl] at hq
        cases hq
        exact h.spans hj i p w hpos hpar hp hw
      · by_cases hji : j = i
        · subst hji
          exact absurd hpar hjp
        · rw [if_neg hji, if_neg hjh] at hq
          exact h.ordered j p q hj hjp hp hq
  spans _ j p q hj hjp hp hq := by
    rw [getElem?_exchange hx hw] at hp hq
    rw [if_neg (by omega), if_pos hpar] at hp
    cases hp
    rw [if_neg (by omega), if_neg (by omega)] at hq
    exact h.ordered j w q hj (by omega) (hjp ▸ hw) hq

theorem DownOrdered.finish (h : DownOrdered ge l hole)
    (hstop : ∀ i x b, 0 < i → (i - 1) / 2 = hole → l[hole]? = some x → l[i]? = some b → ge x b) :
    HeapOrdered ge l := by
  intro i a b hi ha hb
  by_cases hp : (i - 1) / 2 = hole
  · exact hstop i a b hi hp (hp ▸ ha) hb
  · exact h.ordered i a b hi hp ha hb

/-- The root may be replaced once the last element has been taken out. -/
theorem HeapOrdered.replaceRoot (h : HeapOrdered ge l) (n : Nat) (x : α) :
    DownOrdered ge ((l.take n).set 0 x) 0 where
  ordered i a b hi hp ha hb := by
    rw [List.getElem?_set_ne (Ne.symm hp)] at ha
    rw [List.getElem?_set_ne (by omega)] at hb
    rw [List.getElem?_take] at ha hb
    split at ha
    · split at hb
      · exact h i a b hi ha hb
      · cases hb
    · cases ha
  spans h0 := absurd h0 (Nat.lt_irrefl 0)

theorem HeapOrdered.root (h : HeapOrdered ge l) (refl : ∀ a, ge a a)
    (trans : ∀ a b c, ge a b → ge b c → ge a c) (ha : l[0]? = some a) (hb : l[i]? = some b) :
    ge a b := by
  induction i using Nat.strongRecOn generalizing b with
  | _ i ih =>
    by_cases hi : i = 0
    · subst hi
      cases ha.symm.trans hb
      exact refl a
    · have hlt : (i - 1) / 2 < l.length := by
        have := (List.getElem?_eq_some_iff.1 hb).1
        omega
      have hp : l[(i - 1) / 2]? = some l[(i - 1) / 2] := List.getElem?_eq_getElem hlt
      exact trans _ _ _ (ih _ (by omega) hp) (h i _ b (by omega) hp hb)

end Rphp.Lib
