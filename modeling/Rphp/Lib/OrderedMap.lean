import Rphp.Lib.Assoc
import Mathlib.Data.List.Nodup

namespace Rphp.Lib
set_option autoImplicit true

/-! Insertion-ordered maps as lists of entries with distinct keys. -/

section
variable [DecidableEq ι]

def keysOf (l : List (ι × β)) : List ι := l.map Prod.fst

def positionOf (l : List (ι × β)) (k : ι) : Option Nat := (keysOf l).idxOf? k

def getKey (l : List (ι × β)) (k : ι) : Option β :=
  (positionOf l k).bind fun i => l[i]?.map Prod.snd

/-- Overwrite the value at a position. -/
def setValue (l : List (ι × β)) (i : Nat) (v : β) : List (ι × β) :=
  l.modify i fun e => (e.1, v)

/-- Overwrite in place, or append a new key at the end. -/
def putKey (l : List (ι × β)) (k : ι) (v : β) : List (ι × β) :=
  match positionOf l k with
  | some i => setValue l i v
  | none => l ++ [(k, v)]

def removeKey (l : List (ι × β)) (k : ι) : List (ι × β) :=
  match positionOf l k with
  | some i => l.eraseIdx i
  | none => l

omit [DecidableEq ι] in
@[simp] theorem keysOf_append (l l' : List (ι × β)) : keysOf (l ++ l') = keysOf l ++ keysOf l' :=
  List.map_append

omit [DecidableEq ι] in
@[simp] theorem keysOf_singleton (e : ι × β) : keysOf [e] = [e.1] := rfl

omit [DecidableEq ι] in
@[simp] theorem keysOf_length (l : List (ι × β)) : (keysOf l).length = l.length :=
  List.length_map _

omit [DecidableEq ι] in
theorem keysOf_getElem? (l : List (ι × β)) (i : Nat) : (keysOf l)[i]? = l[i]?.map Prod.fst :=
  List.getElem?_map

omit [DecidableEq ι] in
@[simp] theorem keysOf_setValue (l : List (ι × β)) (i : Nat) (v : β) :
    keysOf (setValue l i v) = keysOf l := by
  apply List.ext_getElem?
  intro j
  simp only [keysOf_getElem?, setValue, List.getElem?_modify]
  cases l[j]? with
  | none => simp
  | some e => by_cases h : i = j <;> simp [h]

omit [DecidableEq ι] in
@[simp] theorem setValue_length (l : List (ι × β)) (i : Nat) (v : β) :
    (setValue l i v).length = l.length :=
  List.length_modify _ _ _

omit [DecidableEq ι] in
theorem setValue_getElem? (l : List (ι × β)) (i j : Nat) (v : β) :
    (setValue l i v)[j]? = if i = j then l[j]?.map fun e => (e.1, v) else l[j]? := by
  rw [setValue, List.getElem?_modify]
  split <;> simp_all

omit [DecidableEq ι] in
theorem keysOf_eraseIdx (l : List (ι × β)) (i : Nat) :
    keysOf (l.eraseIdx i) = (keysOf l).eraseIdx i := by
  simp only [keysOf, List.eraseIdx_eq_take_drop_succ, List.map_append, List.map_take,
    List.map_drop]

theorem idxOf?_eq_some_of_nodup {l : List ι} (h : l.Nodup) :
    l.idxOf? k = some i ↔ l[i]? = some k := by
  rw [List.idxOf?_eq_some_iff]
  constructor
  · rintro ⟨hlt, he, _⟩
    exact List.getElem?_eq_some_iff.2 ⟨hlt, by simpa using he⟩
  · intro hi
    obtain ⟨hlt, he⟩ := List.getElem?_eq_some_iff.1 hi
    refine ⟨hlt, by simpa using he, fun j hj hje => ?_⟩
    have hjl : j < l.length := by omega
    have hje' : l[j] = l[i] := by simpa using hje.trans (by simpa using he.symm)
    have := (List.Nodup.getElem_inj_iff h).1 hje'
    omega

theorem positionOf_eq_some {l : List (ι × β)} (h : (keysOf l).Nodup) :
    positionOf l k = some i ↔ (keysOf l)[i]? = some k :=
  idxOf?_eq_some_of_nodup h

theorem positionOf_eq_none {l : List (ι × β)} : positionOf l k = none ↔ k ∉ keysOf l :=
  List.idxOf?_eq_none_iff

/-- The value a map shows under a key is the one in the entry list. -/
theorem getKey_eq_some {l : List (ι × β)} (h : (keysOf l).Nodup) :
    getKey l k = some v ↔ (k, v) ∈ l := by
  unfold getKey
  rw [Option.bind_eq_some_iff]
  constructor
  · rintro ⟨i, hi, hv⟩
    have hk := (positionOf_eq_some h).1 hi
    rw [keysOf_getElem?] at hk
    obtain ⟨e, he, rfl⟩ := Option.map_eq_some_iff.1 hk
    rw [he] at hv
    cases hv
    exact List.mem_of_getElem? he
  · intro hm
    obtain ⟨i, hi⟩ := List.getElem?_of_mem hm
    refine ⟨i, (positionOf_eq_some h).2 ?_, by simp [hi]⟩
    simp [keysOf_getElem?, hi]

theorem getKey_eq_none {l : List (ι × β)} : getKey l k = none ↔ k ∉ keysOf l := by
  unfold getKey
  cases hp : positionOf l k with
  | none => simpa using positionOf_eq_none.1 hp
  | some i =>
    obtain ⟨hlt, he, _⟩ := List.idxOf?_eq_some_iff.1 hp
    have hmem : k ∈ keysOf l := by
      have : (keysOf l)[i] = k := by simpa using he
      exact this ▸ List.getElem_mem hlt
    have hil : i < l.length := by simpa using hlt
    simp [hmem, hil]

theorem keysOf_putKey (l : List (ι × β)) (k : ι) (v : β) :
    keysOf (putKey l k v) = if k ∈ keysOf l then keysOf l else keysOf l ++ [k] := by
  unfold putKey
  cases h : positionOf l k with
  | none => simp [positionOf_eq_none.1 h]
  | some i =>
    have : k ∈ keysOf l := by
      by_contra hn
      rw [positionOf_eq_none.2 hn] at h
      cases h
    simp [this]

theorem nodup_putKey {l : List (ι × β)} (h : (keysOf l).Nodup) (k : ι) (v : β) :
    (keysOf (putKey l k v)).Nodup := by
  rw [keysOf_putKey]
  split
  · exact h
  · rename_i hk
    refine List.nodup_append.2 ⟨h, by simp, fun a ha b hb he => hk ?_⟩
    rwa [← List.mem_singleton.1 hb, ← he]

/-- Distinct new entries are appended in their order. -/
theorem foldl_putKey {l es : List (ι × β)} (hnd : (keysOf (l ++ es)).Nodup) :
    es.foldl (fun l e => putKey l e.1 e.2) l = l ++ es := by
  induction es generalizing l with
  | nil => simp
  | cons e es ih =>
    have hassoc : l ++ e :: es = l ++ [e] ++ es := by simp
    have hnew : e.1 ∉ keysOf l := by
      rw [keysOf_append] at hnd
      exact fun hm => (List.nodup_append.1 hnd).2.2 _ hm e.1 (by simp [keysOf]) rfl
    rw [List.foldl_cons, putKey, positionOf_eq_none.2 hnew, hassoc]
    rw [hassoc] at hnd
    exact ih hnd

end

/-! Secondary indexes from one kind of key to entry positions. -/

section
variable [DecidableEq κ] {pos : α → Nat} {inj : κ → ι}

/-- The table knows the position of every key of its kind, and of no other. -/
def IndexesBy (pos : α → Nat) (inj : κ → ι) (m : AList fun _ : κ => α) (keys : List ι) : Prop :=
  ∀ k i, (m.lookup k).map pos = some i ↔ keys[i]? = some (inj k)

theorem IndexesBy.nil : IndexesBy pos inj ∅ [] := by
  simp [IndexesBy]

theorem IndexesBy.position [DecidableEq ι] {inj : κ → ι} {m : AList fun _ : κ => α} {keys : List ι} (h : IndexesBy pos inj m keys)
    (hnd : keys.Nodup) (k : κ) : (m.lookup k).map pos = keys.idxOf? (inj k) := by
  refine Option.ext fun i => ?_
  rw [h k i, idxOf?_eq_some_of_nodup hnd]

theorem IndexesBy.lookup_eq_none {m : AList fun _ : κ => α} (h : IndexesBy pos inj m keys) :
    m.lookup k = none ↔ inj k ∉ keys := by
  constructor
  · intro hn hk
    obtain ⟨i, hi⟩ := List.getElem?_of_mem hk
    have := (h k i).2 hi
    simp [hn] at this
  · intro hk
    cases hm : m.lookup k with
    | none => rfl
    | some w =>
      have := (h k (pos w)).1 (by rw [hm]; rfl)
      exact absurd (List.mem_of_getElem? this) hk

theorem IndexesBy.push {m : AList fun _ : κ => α} (h : IndexesBy pos inj m keys)
    (hinj : Function.Injective inj) (hk : inj k ∉ keys) (hw : pos w = keys.length) :
    IndexesBy pos inj (m.insert k w) (keys ++ [inj k]) := by
  intro c i
  rw [lookup_insert_eq, getElem?_concat_eq_some]
  by_cases hc : c = k
  · subst hc
    have hne : keys[i]? ≠ some (inj c) := fun he => hk (List.mem_of_getElem? he)
    simp [hne, hw, eq_comm]
  · have hne : inj k ≠ inj c := fun he => hc (hinj he).symm
    simp only [hc, ↓reduceIte, h c i, hne, and_false, or_false]

theorem IndexesBy.push_other {m : AList fun _ : κ => α} (h : IndexesBy pos inj m keys)
    (hx : ∀ k, inj k ≠ x) : IndexesBy pos inj m (keys ++ [x]) := by
  intro c i
  rw [h c i, getElem?_concat_eq_some]
  simp [Ne.symm (hx c)]

/-- A new word for a key that stays where it is. -/
theorem IndexesBy.replace {m : AList fun _ : κ => α} (h : IndexesBy pos inj m keys)
    (hm : m.lookup k = some w) (hw : pos w' = pos w) :
    IndexesBy pos inj (m.insert k w') keys := by
  intro c i
  rw [← h c i, lookup_insert_eq]
  by_cases hc : c = k
  · subst hc
    simp [hm, hw]
  · simp [hc]

theorem IndexesBy.pop {m : AList fun _ : κ => α}
    (h : IndexesBy pos inj m (keys ++ [inj k])) (hnd : (keys ++ [inj k]).Nodup)
    (hinj : Function.Injective inj) : IndexesBy pos inj (m.erase k) keys := by
  intro c i
  have hk : inj k ∉ keys := fun hk => (List.nodup_append.1 hnd).2.2 _ hk _ (by simp) rfl
  rw [lookup_erase_eq]
  by_cases hc : c = k
  · subst hc
    have hne : keys[i]? ≠ some (inj c) := fun he => hk (List.mem_of_getElem? he)
    simp [hne]
  · have hne : inj k ≠ inj c := fun he => hc (hinj he).symm
    simp only [hc, ↓reduceIte, h c i, getElem?_concat_eq_some, hne, and_false, or_false]

theorem IndexesBy.pop_other {m : AList fun _ : κ => α} (h : IndexesBy pos inj m (keys ++ [x]))
    (hx : ∀ k, inj k ≠ x) : IndexesBy pos inj m keys := by
  intro c i
  rw [h c i, getElem?_concat_eq_some]
  simp [Ne.symm (hx c)]

/-- Enter the entries of a list that have a key of the kind, at consecutive positions. -/
def indexEntries (f : Nat → ε → Option (κ × α)) (n : Nat) (m : AList fun _ : κ => α) :
    List ε → AList fun _ : κ => α
  | [] => m
  | e :: es =>
    indexEntries f (n + 1)
      (match f n e with
      | some p => m.insert p.1 p.2
      | none => m) es

/-- A word of the table was there before or was made for an entry of the list. -/
theorem indexEntries_lookup {f : Nat → ε → Option (κ × α)} {m : AList fun _ : κ => α} {es : List ε}
    (h : (indexEntries f n m es).lookup k = some w) :
    m.lookup k = some w ∨ ∃ i e, es[i]? = some e ∧ f (n + i) e = some (k, w) := by
  induction es generalizing n m with
  | nil => exact .inl h
  | cons e es ih =>
    rw [indexEntries] at h
    rcases ih h with hm | ⟨i, e', he, hf⟩
    · cases hfe : f n e with
      | none =>
        rw [hfe] at hm
        exact .inl hm
      | some p =>
        simp only [hfe, lookup_insert_eq] at hm
        split at hm
        · rename_i hk
          cases hm
          exact .inr ⟨0, e, rfl, by rw [Nat.add_zero, hfe, hk]⟩
        · exact .inl hm
    · exact .inr ⟨i + 1, e', he, by rw [← hf, Nat.add_right_comm, Nat.add_assoc]⟩

/-- Below the bound, the entry function finds exactly the keys of the kind and records their
position. -/
def Enters (pos : α → Nat) (inj : κ → ι) (f : Nat → ι × β → Option (κ × α)) (bound : Nat) : Prop :=
  ∀ n e, n < bound → (∀ k w, f n e = some (k, w) → e.1 = inj k ∧ pos w = n) ∧
    (f n e = none → ∀ k, inj k ≠ e.1)

/-- Entering the later entries repairs a table that is right about every key that is not among
them. -/
theorem IndexesBy.reindex {f : Nat → ι × β → Option (κ × α)} {m : AList fun _ : κ => α}
    (l es : List (ι × β)) (hf : Enters pos inj f bound) (hb : (l ++ es).length ≤ bound)
    (hinj : Function.Injective inj) (hnd : (keysOf (l ++ es)).Nodup)
    (hm : ∀ k, inj k ∉ keysOf es →
      ∀ i, (m.lookup k).map pos = some i ↔ (keysOf l)[i]? = some (inj k)) :
    IndexesBy pos inj (indexEntries f l.length m es) (keysOf (l ++ es)) := by
  induction es generalizing m l with
  | nil =>
    intro k i
    simpa [indexEntries] using hm k (by simp [keysOf]) i
  | cons e es ih =>
    have hassoc : l ++ e :: es = l ++ [e] ++ es := by simp
    have hnot : e.1 ∉ keysOf l := by
      simp only [keysOf_append] at hnd
      exact fun hk => (List.nodup_append.1 hnd).2.2 _ hk e.1 (by simp [keysOf]) rfl
    have hlt : l.length < bound := by
      simp only [List.length_append, List.length_cons] at hb
      omega
    rw [hassoc] at hnd hb ⊢
    have hlen : (l ++ [e]).length = l.length + 1 := by simp
    rw [indexEntries, ← hlen]
    refine ih (l ++ [e]) hb hnd fun k hk i => ?_
    have hcons : inj k ≠ e.1 → inj k ∉ keysOf (e :: es) := by
      intro hne hmem
      rcases List.mem_cons.1 hmem with h | h
      · exact hne h
      · exact hk h
    simp only [keysOf_append, keysOf_singleton, getElem?_concat_eq_some]
    obtain ⟨hsome, hnone⟩ := hf l.length e hlt
    cases hfe : f l.length e with
    | none => simp [hm k (hcons (hnone hfe k)) i, (hnone hfe k).symm]
    | some p =>
      obtain ⟨he, hp⟩ := hsome p.1 p.2 hfe
      rw [lookup_insert_eq]
      by_cases hkp : k = p.1
      · have hnk : (keysOf l)[i]? ≠ some e.1 := fun hi => hnot (List.mem_of_getElem? hi)
        rw [hkp, ← he]
        simp [hnk, hp, eq_comm]
      · have hne : inj k ≠ e.1 := fun h => hkp (hinj (h.trans he))
        simp [hkp, hm k (hcons hne) i, hne.symm]

theorem IndexesBy.indexEntries {f : Nat → ι × β → Option (κ × α)} {es : List (ι × β)}
    (hf : Enters pos inj f bound) (hb : es.length ≤ bound) (hinj : Function.Injective inj)
    (hnd : (keysOf es).Nodup) : IndexesBy pos inj (indexEntries f 0 ∅ es) (keysOf es) :=
  IndexesBy.reindex [] es hf hb hinj hnd fun _ _ _ => by simp [keysOf]

/-- Enter the entries whose key the table does not know yet. -/
def indexMissing (f : Nat → ε → Option (κ × α)) (n : Nat) (m : AList fun _ : κ => α) :
    List ε → AList fun _ : κ => α
  | [] => m
  | e :: es =>
    indexMissing f (n + 1)
      (match f n e with
      | some p => if (m.lookup p.1).isSome then m else m.insert p.1 p.2
      | none => m) es

theorem indexMissing_of_known {f : Nat → ε → Option (κ × α)} {m : AList fun _ : κ => α}
    {es : List ε} (h : ∀ e ∈ es, ∀ n p, f n e = some p → (m.lookup p.1).isSome) (n : Nat) :
    indexMissing f n m es = m := by
  induction es generalizing n with
  | nil => rfl
  | cons e es ih =>
    rw [indexMissing]
    cases hfe : f n e with
    | none => exact ih (fun e' he' => h e' (List.mem_cons_of_mem _ he')) _
    | some p =>
      simp only [h e List.mem_cons_self n p hfe, ↓reduceIte]
      exact ih (fun e' he' => h e' (List.mem_cons_of_mem _ he')) _

theorem IndexesBy.indexMissing {f : Nat → ι × β → Option (κ × α)} {m : AList fun _ : κ => α}
    {l es : List (ι × β)} (hf : Enters pos inj f bound) (hb : (l ++ es).length ≤ bound)
    (hinj : Function.Injective inj) (h : IndexesBy pos inj m (keysOf l))
    (hnd : (keysOf (l ++ es)).Nodup) :
    IndexesBy pos inj (indexMissing f l.length m es) (keysOf (l ++ es)) := by
  induction es generalizing m l with
  | nil => simpa [Lib.indexMissing] using h
  | cons e es ih =>
    have hassoc : l ++ e :: es = l ++ [e] ++ es := by simp
    have hnot : e.1 ∉ keysOf l := by
      simp only [keysOf_append] at hnd
      exact fun hk => (List.nodup_append.1 hnd).2.2 _ hk e.1 (by simp [keysOf]) rfl
    have hlt : l.length < bound := by
      simp only [List.length_append, List.length_cons] at hb
      omega
    rw [hassoc] at hnd hb ⊢
    have hlen : (l ++ [e]).length = l.length + 1 := by simp
    rw [Lib.indexMissing, ← hlen]
    refine ih hb ?_ hnd
    obtain ⟨hsome, hnone⟩ := hf l.length e hlt
    simp only [keysOf_append, keysOf_singleton]
    cases hfe : f l.length e with
    | none => exact h.push_other (hnone hfe)
    | some p =>
      obtain ⟨he, hp⟩ := hsome p.1 p.2 hfe
      rw [he] at hnot ⊢
      simp only [h.lookup_eq_none.2 hnot, Option.isSome_none, Bool.false_eq_true, ↓reduceIte]
      exact h.push hinj hnot (by simpa using hp)

end

end Rphp.Lib
