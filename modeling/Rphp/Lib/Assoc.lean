import Mathlib.Data.List.AList
import Mathlib.Logic.Function.Iterate

namespace Rphp.Lib
set_option autoImplicit true

theorem getElem?_concat_eq_some {l : List α} :
    (l ++ [x])[i]? = some y ↔ l[i]? = some y ∨ i = l.length ∧ x = y := by
  rw [List.getElem?_append]
  split
  · rename_i hlt
    have : i ≠ l.length := by omega
    simp [this]
  · rename_i hlt
    rw [List.getElem?_eq_none (Nat.not_lt.1 hlt)]
    by_cases hi : i = l.length
    · simp [hi]
    · have : i - l.length ≠ 0 := by omega
      simp [hi, this]

section
variable [DecidableEq κ]

theorem lookup_insert_eq (m : AList fun _ : κ => β) (k c : κ) (v : β) :
    (m.insert k v).lookup c = if c = k then some v else m.lookup c := by
  split
  · rename_i h
    rw [h, AList.lookup_insert]
  · rename_i h
    rw [AList.lookup_insert_ne h]

theorem lookup_erase_eq (m : AList fun _ : κ => β) (k c : κ) :
    (m.erase k).lookup c = if c = k then none else m.lookup c := by
  split
  · rename_i h
    rw [h, AList.lookup_erase]
  · rename_i h
    rw [AList.lookup_erase_ne h]

/-- Change the value of a key that is present. -/
def modifyKey (m : AList fun _ : κ => β) (k : κ) (f : β → β) : AList fun _ : κ => β :=
  match m.lookup k with
  | some v => m.insert k (f v)
  | none => m

theorem lookup_modifyKey (m : AList fun _ : κ => β) (k c : κ) (f : β → β) :
    (modifyKey m k f).lookup c = if c = k then (m.lookup c).map f else m.lookup c := by
  unfold modifyKey
  by_cases hc : c = k
  · subst hc
    cases h : m.lookup c with
    | none => simp [h]
    | some v => simp
  · cases h : m.lookup k with
    | none => simp [hc]
    | some v => simp [hc]

/-- Modifying along a list of keys applies the change once for each occurrence. -/
theorem lookup_foldl_modifyKey (f : β → β) (keys : List κ) (m : AList fun _ : κ => β) (c : κ) :
    (keys.foldl (fun m k => modifyKey m k f) m).lookup c =
      (m.lookup c).map f^[keys.count c] := by
  induction keys generalizing m with
  | nil => simp
  | cons k keys ih =>
    rw [List.foldl_cons, ih, lookup_modifyKey]
    by_cases h : c = k
    · subst h
      simp [Function.iterate_succ]
    · simp [h, List.count_cons_of_ne (Ne.symm h)]

/-- How often a value is listed under a key. -/
def occurrences [DecidableEq β] (m : AList fun _ : κ => List β) (k : κ) (v : β) : Nat :=
  ((m.lookup k).getD []).count v

/-- No key is kept for an empty list. -/
def NoEmpty (m : AList fun _ : κ => List β) : Prop := ∀ k, m.lookup k ≠ some []

end

section
variable [DecidableEq κ]

/-- The table maps each element of the list to its position, and nothing else. -/
def IsIndexOf (m : AList fun _ : κ => Nat) (l : List κ) : Prop :=
  ∀ k i, m.lookup k = some i ↔ l[i]? = some k

/-- Enter the elements of a list at consecutive positions; a later equal element replaces. -/
def indexFrom (n : Nat) (m : AList fun _ : κ => Nat) : List κ → AList fun _ : κ => Nat
  | [] => m
  | k :: ks => indexFrom (n + 1) (m.insert k n) ks

def indexOf (l : List κ) : AList fun _ : κ => Nat := indexFrom 0 ∅ l

theorem IsIndexOf.nil : IsIndexOf (∅ : AList fun _ : κ => Nat) [] := by
  simp [IsIndexOf]

theorem IsIndexOf.nodup {m : AList fun _ : κ => Nat} (h : IsIndexOf m l) : l.Nodup := by
  rw [List.nodup_iff_getElem?_ne_getElem?]
  intro i j hij hj he
  have hjk : l[j]? = some l[j] := List.getElem?_eq_getElem hj
  have h1 := (h _ _).2 hjk
  have h2 := (h _ _).2 (he.trans hjk)
  rw [h1] at h2
  have := Option.some.inj h2
  omega

theorem IsIndexOf.lookup_eq_none {m : AList fun _ : κ => Nat} (h : IsIndexOf m l) :
    m.lookup k = none ↔ k ∉ l := by
  constructor
  · intro hn hk
    obtain ⟨i, hi⟩ := List.getElem?_of_mem hk
    simp [(h k i).2 hi] at hn
  · intro hk
    cases hm : m.lookup k with
    | none => rfl
    | some i => exact absurd (List.mem_of_getElem? ((h k i).1 hm)) hk

theorem IsIndexOf.lt {m : AList fun _ : κ => Nat} (h : IsIndexOf m l)
    (hk : m.lookup k = some i) : i < l.length :=
  (List.getElem?_eq_some_iff.1 ((h k i).1 hk)).1

/-- A new element goes to the end. -/
theorem IsIndexOf.push {m : AList fun _ : κ => Nat} (h : IsIndexOf m l) (hk : k ∉ l) :
    IsIndexOf (m.insert k l.length) (l ++ [k]) := by
  intro c i
  rw [lookup_insert_eq, getElem?_concat_eq_some]
  by_cases hc : c = k
  · subst hc
    have hne : l[i]? ≠ some c := fun he => hk (List.mem_of_getElem? he)
    simp [hne, eq_comm]
  · simp [hc, Ne.symm hc, h c i]

theorem IsIndexOf.indexFrom {m : AList fun _ : κ => Nat} (h : IsIndexOf m l)
    (hnd : (l ++ ks).Nodup) : IsIndexOf (indexFrom l.length m ks) (l ++ ks) := by
  induction ks generalizing m l with
  | nil => simpa [Lib.indexFrom] using h
  | cons k ks ih =>
    have hk : k ∉ l := fun hl => (List.nodup_append.1 hnd).2.2 k hl k (by simp) rfl
    have hassoc : l ++ k :: ks = l ++ [k] ++ ks := by simp
    rw [hassoc] at hnd ⊢
    simpa [Lib.indexFrom] using ih (h.push hk) hnd

/-- Entering the later elements repairs a table that is right about all others. -/
theorem IsIndexOf.reindex {m : AList fun _ : κ => Nat} (l ks : List κ) (hnd : (l ++ ks).Nodup)
    (hm : ∀ k, k ∉ ks → ∀ i, m.lookup k = some i ↔ l[i]? = some k) :
    IsIndexOf (Lib.indexFrom l.length m ks) (l ++ ks) := by
  induction ks generalizing m l with
  | nil =>
    intro k i
    simpa [Lib.indexFrom] using hm k (by simp) i
  | cons c ks ih =>
    have hassoc : l ++ c :: ks = l ++ [c] ++ ks := by simp
    have hc : c ∉ l := fun hl => (List.nodup_append.1 hnd).2.2 c hl c (by simp) rfl
    have hlen : (l ++ [c]).length = l.length + 1 := by simp
    rw [hassoc] at hnd ⊢
    rw [Lib.indexFrom, ← hlen]
    refine ih (l ++ [c]) hnd fun k hk i => ?_
    rw [lookup_insert_eq, getElem?_concat_eq_some]
    by_cases hkc : k = c
    · subst hkc
      have hne : l[i]? ≠ some k := fun he => hc (List.mem_of_getElem? he)
      simp [hne, eq_comm]
    · simp [hkc, Ne.symm hkc, hm k (by simp [hkc, hk]) i]

/-- The later elements move forward by one when an element is removed. -/
theorem IsIndexOf.eraseIdx {m : AList fun _ : κ => Nat} (h : IsIndexOf m l) (hp : l[p]? = some k) :
    IsIndexOf (Lib.indexFrom p (m.erase k) ((l.eraseIdx p).drop p)) (l.eraseIdx p) := by
  obtain ⟨hlt, hget⟩ := List.getElem?_eq_some_iff.1 hp
  obtain ⟨pre, rest, rfl, rfl⟩ : ∃ pre rest, l = pre ++ k :: rest ∧ pre.length = p :=
    ⟨l.take p, l.drop (p + 1), by rw [← hget]; simp, by simp; omega⟩
  have hnd := h.nodup
  have herase : (pre ++ k :: rest).eraseIdx pre.length = pre ++ rest := by
    simp [List.eraseIdx_append_of_length_le]
  have hdrop : (pre ++ rest).drop pre.length = rest := by simp
  rw [herase, hdrop]
  refine .reindex pre rest (hnd.sublist (by simp)) fun c hc i => ?_
  rw [lookup_erase_eq]
  by_cases hck : c = k
  · subst hck
    have hnot : c ∉ pre := fun hm => (List.nodup_append.1 hnd).2.2 c hm c (by simp) rfl
    have hne : pre[i]? ≠ some c := fun he => hnot (List.mem_of_getElem? he)
    simp [hne]
  · rw [if_neg hck, h c i]
    rcases Nat.lt_or_ge i pre.length with hi | hi
    · rw [List.getElem?_append_left hi]
    · rw [List.getElem?_append_right hi, List.getElem?_eq_none hi]
      refine ⟨fun he => ?_, fun he => by cases he⟩
      rcases List.mem_cons.1 (List.mem_of_getElem? he) with hm | hm
      · exact absurd hm hck
      · exact absurd hm hc

theorem indexFrom_append (n : Nat) (m : AList fun _ : κ => Nat) (l ks : List κ) :
    indexFrom n m (l ++ ks) = indexFrom (n + l.length) (indexFrom n m l) ks := by
  induction l generalizing n m with
  | nil => rfl
  | cons k l ih =>
    simp only [List.cons_append, indexFrom, List.length_cons]
    rw [ih, Nat.add_right_comm, Nat.add_assoc]

theorem isIndexOf_indexOf {l : List κ} (h : l.Nodup) : IsIndexOf (indexOf l) l :=
  IsIndexOf.nil.indexFrom h

end

end Rphp.Lib
