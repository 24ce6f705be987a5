import Rphp.Stdlib.Deque
import Rphp.Lib.Run
import Mathlib.Data.List.Perm.Basic

namespace Rphp.Stdlib
open Lib
set_option autoImplicit true

/-- An element of the sequence that a list stands for, with the slot that holds it. -/
structure Element (V : Type) where
  id : Nat
  slot : Nat
  value : V
deriving DecidableEq, Repr

namespace Deque
variable {d : Deque V} {seq left right : List (Element V)} {x : Element V}

/-- The slot at the right end of a part of the sequence. -/
def lastSlot (l : List (Element V)) : Option Nat := l.getLast?.map Element.slot

/-- The slot at the left end of a part of the sequence. -/
def firstSlot (l : List (Element V)) : Option Nat := l.head?.map Element.slot

/-- The links, seen from any element, lead to its neighbours. -/
def Linked (d : Deque V) (seq : List (Element V)) : Prop :=
  ∀ left x right, seq = left ++ x :: right →
    d.store[x.id]? = some ⟨x.slot, lastSlot left, firstSlot right, x.value⟩

/-- The arena stands for a sequence. -/
structure Represents (d : Deque V) (seq : List (Element V)) : Prop where
  linked : d.Linked seq
  occupied : ∀ slot id, d.node slot = some id ↔ ∃ x ∈ seq, x.slot = slot ∧ x.id = id
  nodup : (seq.map Element.id).Nodup
  head : d.head = firstSlot seq
  tail : d.tail = lastSlot seq
  len : d.len = seq.length
  freeNodup : d.free.Nodup
  dead : ∀ slot, slot ∈ d.free ↔ d.nodes[slot]? = some none
  stale : ∀ id n, d.store[id]? = some n → (∀ x ∈ seq, x.id ≠ id) → n.previous = none ∧ n.next = none

@[simp] theorem lastSlot_nil : lastSlot ([] : List (Element V)) = none := rfl

@[simp] theorem lastSlot_concat (l : List (Element V)) (x : Element V) :
    lastSlot (l ++ [x]) = some x.slot := by
  simp [lastSlot]

@[simp] theorem firstSlot_cons (l : List (Element V)) (x : Element V) :
    firstSlot (x :: l) = some x.slot := rfl

@[simp] theorem firstSlot_nil : firstSlot ([] : List (Element V)) = none := rfl

theorem lastSlot_append_cons (l l' : List (Element V)) (x : Element V) :
    lastSlot (l ++ x :: l') = lastSlot (x :: l') := by
  simp [lastSlot, List.getLast?_append, List.getLast?_cons]

/-- The parts of a sequence have their own elements. -/
theorem Represents.ne_of_split (h : d.Represents seq) (hs : seq = left ++ x :: right)
    (hy : y ∈ left ∨ y ∈ right) : y.id ≠ x.id := by
  have hnodup := h.nodup
  rw [hs, List.map_append, List.map_cons, List.nodup_append, List.nodup_cons] at hnodup
  intro he
  rcases hy with hy | hy
  · exact hnodup.2.2 y.id (List.mem_map_of_mem hy) x.id List.mem_cons_self he
  · exact hnodup.2.1.1 (he ▸ List.mem_map_of_mem hy)

theorem Represents.stored (h : d.Represents seq) (hx : x ∈ seq) :
    ∃ left right, seq = left ++ x :: right ∧
      d.store[x.id]? = some ⟨x.slot, lastSlot left, firstSlot right, x.value⟩ := by
  obtain ⟨left, right, hs⟩ := List.append_of_mem hx
  exact ⟨left, right, hs, h.linked left x right hs⟩

theorem Represents.node_slot (h : d.Represents seq) (hx : x ∈ seq) :
    d.node x.slot = some x.id := (h.occupied _ _).2 ⟨x, hx, rfl, rfl⟩

theorem Represents.id_lt (h : d.Represents seq) (hx : x ∈ seq) : x.id < d.store.length := by
  obtain ⟨_, _, _, hstore⟩ := h.stored hx
  exact (List.getElem?_eq_some_iff.1 hstore).1

theorem Represents.eq_of_id (h : d.Represents seq) (hx : x ∈ seq) (hy : y ∈ seq)
    (he : x.id = y.id) : x = y := by
  obtain ⟨left, right, hs⟩ := List.append_of_mem hx
  rw [hs, List.mem_append, List.mem_cons] at hy
  rcases hy with hy | rfl | hy
  · exact absurd he.symm (h.ne_of_split hs (.inl hy))
  · rfl
  · exact absurd he.symm (h.ne_of_split hs (.inr hy))

theorem Represents.eq_of_slot (h : d.Represents seq) (hx : x ∈ seq) (hy : y ∈ seq)
    (he : x.slot = y.slot) : x = y := by
  have hx' := h.node_slot hx
  rw [he, h.node_slot hy] at hx'
  exact h.eq_of_id hx hy (Option.some.inj hx').symm

/-- A node whose links were changed if it is next to a gap in the sequence. -/
def bridge (left right : List (Element V)) (next previous : Option Nat) (id : Nat) (n : Node V) :
    Node V :=
  { n with
    next := if left.getLast?.map Element.id = some id then next else n.next
    previous := if right.head?.map Element.id = some id then previous else n.previous }

/-- The neighbours of a gap between two parts of the sequence lead across it. -/
structure Relinked (left right : List (Element V)) (next previous : Option Nat)
    (d d' : Deque V) : Prop where
  store : ∀ id, d'.store[id]? = (d.store[id]?).map (bridge left right next previous id)
  head : d'.head = if left = [] then next else d.head
  tail : d'.tail = if right = [] then previous else d.tail
  length : d'.store.length = d.store.length
  rest : d' = { d with store := d'.store, head := d'.head, tail := d'.tail }

theorem linkNext_spec {borrowed : Option Nat} (next : Option Nat)
    (hleft : ∀ a ∈ left, d.node a.slot = some a.id ∧ borrowed ≠ some a.id) :
    ∃ d', d.linkNext borrowed (lastSlot left) next = some d' ∧ Relinked left [] next d.tail d d' := by
  rcases List.eq_nil_or_concat left with rfl | ⟨left, a, rfl⟩
  · refine ⟨{ d with head := next }, rfl, fun id => ?_, rfl, rfl, rfl, rfl⟩
    cases d.store[id]? <;> simp [bridge]
  · obtain ⟨hnode, hb⟩ := hleft a (by simp)
    refine ⟨d.onNode a.id fun n => { n with next }, ?_, fun id => ?_, by simp [onNode], rfl,
      by simp [onNode], rfl⟩
    · simp only [List.concat_eq_append, lastSlot_concat, linkNext, hnode, if_neg hb]
    · by_cases hid : a.id = id
      · cases hn : d.store[id]? <;> simp [onNode, bridge, hid, hn]
      · cases hn : d.store[id]? <;> simp [onNode, bridge, hid, hn]

theorem linkPrevious_spec {borrowed : Option Nat} (previous : Option Nat)
    (hright : ∀ b ∈ right, d.node b.slot = some b.id ∧ borrowed ≠ some b.id) :
    ∃ d', d.linkPrevious borrowed (firstSlot right) previous = some d' ∧
      Relinked [] right d.head previous d d' := by
  cases right with
  | nil =>
    refine ⟨{ d with tail := previous }, rfl, fun id => ?_, rfl, rfl, rfl, rfl⟩
    cases d.store[id]? <;> simp [bridge]
  | cons b right =>
    obtain ⟨hnode, hb⟩ := hright b List.mem_cons_self
    refine ⟨d.onNode b.id fun n => { n with previous }, ?_, fun id => ?_, rfl,
      by simp [onNode], by simp [onNode], rfl⟩
    · simp only [firstSlot_cons, linkPrevious, hnode, if_neg hb]
    · by_cases hid : b.id = id
      · cases hn : d.store[id]? <;> simp [onNode, bridge, hid, hn]
      · cases hn : d.store[id]? <;> simp [onNode, bridge, hid, hn]

theorem relink_spec (d : Deque V) (left right : List (Element V))
    (borrowed next previous : Option Nat)
    (hleft : ∀ a ∈ left, d.node a.slot = some a.id ∧ borrowed ≠ some a.id)
    (hright : ∀ b ∈ right, d.node b.slot = some b.id ∧ borrowed ≠ some b.id) :
    ∃ d₁ d₂, d.linkNext borrowed (lastSlot left) next = some d₁ ∧
      d₁.linkPrevious borrowed (firstSlot right) previous = some d₂ ∧
      Relinked left right next previous d d₂ := by
  obtain ⟨d₁, h₁, hl⟩ := linkNext_spec (d := d) next hleft
  have hnode : d₁.node = d.node := by
    rw [hl.rest]
    rfl
  obtain ⟨d₂, h₂, hr⟩ := linkPrevious_spec (d := d₁) previous (by rwa [hnode])
  refine ⟨d₁, d₂, h₁, h₂, fun id => ?_, ?_, ?_, hr.length.trans hl.length, ?_⟩
  · rw [hr.store, hl.store, Option.map_map]
    refine congrArg (Option.map · _) (funext fun n => ?_)
    simp [bridge]
  · rw [hr.head, if_pos rfl, hl.head]
  · rw [hr.tail, hl.tail, if_pos rfl]
  · rw [hr.rest, hl.rest]

theorem bridge_left {y : Element V} (hm : ∀ a ∈ m, a.id ≠ y.id)
    (hright : ∀ b ∈ right, b.id ≠ y.id) (next previous : Option Nat) (n : Node V) :
    bridge (l ++ y :: m) right next previous y.id n =
      { n with next := if m = [] then next else n.next } := by
  have hnext : (l ++ y :: m).getLast?.map Element.id = some y.id ↔ m = [] := by
    rcases List.eq_nil_or_concat m with rfl | ⟨m, a, rfl⟩
    · simp
    · have := hm a (by simp)
      simp [List.getLast?_append, List.getLast?_cons, this]
  have hprev : right.head?.map Element.id ≠ some y.id := by
    cases right with
    | nil => nofun
    | cons b right => simpa using hright b List.mem_cons_self
  simp only [bridge, hnext, if_neg hprev]

theorem bridge_right {y : Element V} (hm : ∀ a ∈ m, a.id ≠ y.id)
    (hleft : ∀ a ∈ left, a.id ≠ y.id) (next previous : Option Nat) (n : Node V) :
    bridge left (m ++ y :: r) next previous y.id n =
      { n with previous := if m = [] then previous else n.previous } := by
  have hprev : (m ++ y :: r).head?.map Element.id = some y.id ↔ m = [] := by
    cases m with
    | nil => simp
    | cons a m =>
      have := hm a List.mem_cons_self
      simp [this]
  have hnext : left.getLast?.map Element.id ≠ some y.id := by
    rcases List.eq_nil_or_concat left with rfl | ⟨left, a, rfl⟩
    · nofun
    · simpa using hleft a (by simp)
  simp only [bridge, hprev, if_neg hnext]

theorem bridge_away {k : Nat} (hleft : ∀ a ∈ left, a.id ≠ k) (hright : ∀ b ∈ right, b.id ≠ k)
    (next previous : Option Nat) (n : Node V) : bridge left right next previous k n = n := by
  have hnext : left.getLast?.map Element.id ≠ some k := by
    rcases List.eq_nil_or_concat left with rfl | ⟨left, a, rfl⟩
    · nofun
    · simpa using hleft a (by simp)
  have hprev : right.head?.map Element.id ≠ some k := by
    cases right with
    | nil => nofun
    | cons b right => simpa using hright b List.mem_cons_self
  simp only [bridge, if_neg hprev, if_neg hnext]

/-- Where an element of two joined parts comes from. -/
theorem append_eq_split {α : Type} {A B l r : List α} {y : α} (h : A ++ B = l ++ y :: r) :
    (∃ m, A = l ++ y :: m ∧ r = m ++ B) ∨ ∃ m, B = m ++ y :: r ∧ l = A ++ m := by
  rcases List.append_eq_append_iff.1 h with ⟨m, hl, hB⟩ | ⟨m, hA, hr⟩
  · exact .inr ⟨m, hB, hl⟩
  · cases m with
    | nil => exact .inr ⟨[], by simpa using hr.symm, by simpa using hA.symm⟩
    | cons z m =>
      cases hr
      exact .inl ⟨m, hA, rfl⟩

/-- A slot is ready to be filled. -/
structure Taken (d d' : Deque V) (slot : Nat) : Prop where
  rest : d' = { d with nodes := d'.nodes, free := d'.free }
  vacant : d.node slot = none
  inside : slot < d'.nodes.length
  same : ∀ s, d'.node s = d.node s
  freeNodup : d'.free.Nodup
  dead : ∀ s, s ∈ d'.free ↔ d'.nodes[s]? = some none ∧ s ≠ slot

theorem Represents.takeSlot (h : d.Represents seq) : Taken d d.takeSlot.2 d.takeSlot.1 := by
  unfold Deque.takeSlot
  cases hlast : d.free.getLast? with
  | some slot =>
    obtain ⟨l, hl⟩ := List.getLast?_eq_some_iff.1 hlast
    have hdrop : d.free.dropLast = l := by rw [hl, List.dropLast_concat]
    have hnodup := h.freeNodup
    rw [hl, List.nodup_append] at hnodup
    have hdead := (h.dead slot).1 (by simp [hl])
    refine ⟨rfl, by simp [node, hdead], (List.getElem?_eq_some_iff.1 hdead).1, fun _ => rfl, ?_,
      fun s => ?_⟩
    · simpa only [hdrop] using hnodup.1
    · rw [← h.dead]
      change s ∈ d.free.dropLast ↔ _
      rw [hdrop, hl, List.mem_append, List.mem_singleton]
      constructor
      · exact fun hs => ⟨.inl hs, fun he => hnodup.2.2 s hs slot (by simp) he⟩
      · rintro ⟨hs | hs, hne⟩
        · exact hs
        · exact absurd hs hne
  | none =>
    have hnil : d.free = [] := List.getLast?_eq_none_iff.1 hlast
    have hnode : ∀ s, (d.nodes ++ [none])[s]? = if s = d.nodes.length then some none
        else d.nodes[s]? := by
      intro s
      rw [List.getElem?_append]
      split
      · rw [if_neg (by omega)]
      · by_cases hs : s = d.nodes.length
        · simp [hs]
        · rw [if_neg hs, List.getElem?_eq_none (by simp; omega), List.getElem?_eq_none (by omega)]
    refine ⟨rfl, by simp [node], by simp, fun s => ?_, h.freeNodup, fun s => ?_⟩
    · simp only [node, hnode]
      split
      · rename_i hs
        simp [hs]
      · rfl
    · rw [h.dead, hnode]
      by_cases hs : s = d.nodes.length
      · simp [hs]
      · simp [hs]

theorem Represents.previousOf_eq (h : d.Represents (left ++ right)) :
    d.previousOf (firstSlot right) = some (lastSlot left) := by
  cases right with
  | nil => simpa [previousOf] using h.tail
  | cons b right =>
    have hb : b ∈ left ++ b :: right := by simp
    simp only [firstSlot_cons, previousOf, h.node_slot hb, h.linked left b right rfl]
    rfl

/-- A sequence whose parts are linked across a new element. -/
theorem Linked.insert {d d' : Deque V} (h : d.Represents (left ++ right)) (x : Element V)
    (hx : x.id = d.store.length)
    (hstore : ∀ k, d'.store[k]? =
      (if k = d.store.length then some ⟨x.slot, lastSlot left, firstSlot right, x.value⟩
        else d.store[k]?).map (bridge left right (some x.slot) (some x.slot) k)) :
    d'.Linked (left ++ x :: right) := by
  have hold : ∀ y ∈ left ++ right, y.id ≠ d.store.length := fun y hy => (h.id_lt hy).ne
  intro l y r hsplit
  rw [hstore]
  rcases append_eq_split hsplit with ⟨m, hA, rfl⟩ | ⟨m, hB, rfl⟩
  · have hs : left ++ right = l ++ y :: (m ++ right) := by rw [hA, List.append_assoc]; rfl
    rw [if_neg (hold y (by rw [hs]; simp)), h.linked _ _ _ hs, hA]
    simp only [Option.map_some]
    rw [bridge_left (fun a ha => h.ne_of_split hs (.inr (List.mem_append_left _ ha)))
      (fun b hb => h.ne_of_split hs (.inr (List.mem_append_right _ hb)))]
    cases m with
    | nil => simp
    | cons a m => simp [firstSlot]
  · cases m with
    | nil =>
      cases hB
      simp only [hx, if_true, Option.map_some, List.append_nil]
      rw [bridge_away (fun a ha => hold a (List.mem_append_left _ ha))
        (fun b hb => hold b (List.mem_append_right _ hb))]
    | cons z m =>
      obtain ⟨rfl, rfl⟩ : x = z ∧ right = m ++ y :: r := by simpa using hB
      have hs : left ++ (m ++ y :: r) = (left ++ m) ++ y :: r := by rw [List.append_assoc]
      rw [if_neg (hold y (by simp)), h.linked _ _ _ hs]
      simp only [Option.map_some]
      rw [bridge_right (fun a ha => h.ne_of_split hs (.inl (List.mem_append_right _ ha)))
        (fun a ha => h.ne_of_split hs (.inl (List.mem_append_left _ ha)))]
      rcases List.eq_nil_or_concat m with rfl | ⟨m, a, rfl⟩
      · simp
      · simp [lastSlot, List.getLast?_append, List.getLast?_cons]

theorem mem_insert {l r : List α} {x y : α} : y ∈ l ++ x :: r ↔ y = x ∨ y ∈ l ++ r := by
  simp only [List.mem_append, List.mem_cons]
  exact or_left_comm

theorem insertBefore_spec (h : d.Represents (left ++ right)) (value : V) :
    ∃ d' slot, d.insertBefore (firstSlot right) value = some d' ∧
      d'.Represents (left ++ ⟨d.store.length, slot, value⟩ :: right) ∧ d'.mode = d.mode ∧
      d'.cursor = d.cursor ∧ d'.store.length = d.store.length + 1 := by
  have htake := h.takeSlot
  generalize hslot : d.takeSlot.1 = slot at htake
  generalize hd₁ : d.takeSlot.2 = d₁ at htake
  have hpair : d.takeSlot = (slot, d₁) := by rw [← hslot, ← hd₁]
  obtain ⟨nodes, free, rfl⟩ : ∃ nodes free, d₁ = { d with nodes, free } := ⟨_, _, htake.rest⟩
  let n : Node V := ⟨slot, lastSlot left, firstSlot right, value⟩
  let d₂ : Deque V := fill { d with nodes, free } n
  have hlt : slot < nodes.length := htake.inside
  have hnode : ∀ s, d₂.node s = if s = slot then some d.store.length else d.node s := by
    intro s
    by_cases hs : s = slot
    · subst hs
      simp [d₂, n, fill, node, hlt]
    · rw [if_neg hs, ← htake.same s]
      simp [d₂, n, fill, node, List.getElem?_set_ne (Ne.symm hs)]
  have hlive : ∀ a ∈ left ++ right, d₂.node a.slot = some a.id := by
    intro a ha
    rw [hnode, if_neg, h.node_slot ha]
    intro hs
    have := htake.vacant
    rw [← hs, h.node_slot ha] at this
    cases this
  obtain ⟨d₃, d₄, hnext, hprev, hre⟩ := relink_spec d₂ left right none (some slot)
    (some slot)
    (fun a ha => ⟨hlive a (List.mem_append_left _ ha), nofun⟩)
    (fun a ha => ⟨hlive a (List.mem_append_right _ ha), nofun⟩)
  have hins : d.insertBefore (firstSlot right) value = some { d₄ with len := d₄.len + 1 } := by
    simp only [insertBefore, h.previousOf_eq, hpair, Option.bind_eq_bind, Option.bind_some]
    change (d₂.linkNext none (lastSlot left) (some slot)).bind _ = _
    rw [hnext, Option.bind_some, hprev]
    rfl
  obtain ⟨store, head, tail, rfl⟩ : ∃ store head tail, d₄ = { d₂ with store, head, tail } :=
    ⟨_, _, _, hre.rest⟩
  have hstore : ∀ k, store[k]? = (if k = d.store.length then some n else d.store[k]?).map
      (bridge left right (some slot) (some slot) k) := by
    intro k
    rw [hre.store k]
    change ((d.store ++ [n])[k]?).map _ = _
    rw [List.getElem?_append]
    split
    · rw [if_neg (by omega)]
    · by_cases hk : k = d.store.length
      · simp [hk]
      · rw [if_neg hk, List.getElem?_eq_none (by simp; omega), List.getElem?_eq_none (by omega)]
  refine ⟨_, slot, hins, ?_, rfl, rfl, ?_⟩
  · refine ⟨Linked.insert h _ rfl hstore, fun s k => ?_, ?_, ?_, ?_, ?_, htake.freeNodup,
      fun s => ?_, fun k m hk hm => ?_⟩
    · change d₂.node s = some k ↔ _
      rw [hnode]
      by_cases hs : s = slot
      · subst hs
        rw [if_pos rfl]
        constructor
        · intro hk
          exact ⟨_, mem_insert.2 (.inl rfl), rfl, Option.some.inj hk⟩
        · rintro ⟨y, hy, hys, rfl⟩
          rcases mem_insert.1 hy with rfl | hy
          · rfl
          · have := hlive y hy
            rwa [hys, hnode, if_pos rfl] at this
      · rw [if_neg hs, h.occupied]
        constructor
        · rintro ⟨y, hy, hys⟩
          exact ⟨y, mem_insert.2 (.inr hy), hys⟩
        · rintro ⟨y, hy, hys, hk⟩
          rcases mem_insert.1 hy with rfl | hy
          · exact absurd hys.symm hs
          · exact ⟨y, hy, hys, hk⟩
    · rw [List.map_append, List.map_cons]
      refine List.perm_middle.nodup_iff.2 (List.nodup_cons.2 ⟨?_, by simpa using h.nodup⟩)
      rw [← List.map_append]
      intro hmem
      obtain ⟨y, hy, hid⟩ := List.mem_map.1 hmem
      exact (h.id_lt hy).ne hid
    · rw [hre.head]
      cases left with
      | nil => rfl
      | cons a left => exact h.head
    · rw [hre.tail]
      cases right with
      | nil => simp
      | cons b right =>
        rw [if_neg (List.cons_ne_nil _ _), lastSlot_append_cons]
        refine h.tail.trans ?_
        rw [lastSlot_append_cons]
        simp [lastSlot, List.getLast?_cons]
    · change d.len + 1 = _
      rw [h.len]
      simp
      omega
    · change s ∈ free ↔ (nodes.set slot (some d.store.length))[s]? = some none
      refine (htake.dead s).trans ?_
      by_cases hs : s = slot
      · subst hs
        simp [hlt]
      · rw [List.getElem?_set_ne (Ne.symm hs)]
        exact ⟨fun hk => hk.1, fun hk => ⟨hk, hs⟩⟩
    · have hne : k ≠ d.store.length := fun he => hm _ (mem_insert.2 (.inl rfl)) he.symm
      change store[k]? = some m at hk
      rw [hstore, if_neg hne] at hk
      obtain ⟨m', hm', rfl⟩ := Option.map_eq_some_iff.1 hk
      have hout : ∀ y ∈ left ++ right, y.id ≠ k := fun y hy => hm y (mem_insert.2 (.inr hy))
      rw [bridge_away (fun a ha => hout a (List.mem_append_left _ ha))
        (fun b hb => hout b (List.mem_append_right _ hb))]
      exact h.stale k m' hm' hout
  · have := hre.length
    simpa [d₂, fill] using this

section
variable [Inhabited V]

/-- A node that has left the list is not removed again, also when its slot was given to
another node. -/
theorem remove_stale (h : d.Represents seq) (hk : d.store[k]? = some n)
    (hout : ∀ y ∈ seq, y.id ≠ k) (invalidate : Bool) :
    d.remove k invalidate = some (default, d) := by
  have hne : d.node n.slot ≠ some k := by
    intro hnode
    obtain ⟨y, hy, -, hid⟩ := (h.occupied _ _).1 hnode
    exact hout y hy hid
  simp only [remove, hk, if_neg hne]

omit [Inhabited V] in
/-- A sequence whose parts are linked after the element between them is gone. -/
theorem Linked.remove {d d' : Deque V} (h : d.Represents (left ++ x :: right))
    (hstore : ∀ k, k ≠ x.id → d'.store[k]? =
      (d.store[k]?).map (bridge left right (firstSlot right) (lastSlot left) k)) :
    d'.Linked (left ++ right) := by
  intro l y r hsplit
  rcases append_eq_split hsplit with ⟨m, hA, rfl⟩ | ⟨m, hB, rfl⟩
  · have hs : left ++ x :: right = l ++ y :: (m ++ x :: right) := by
      rw [hA, List.append_assoc]
      rfl
    have hne : y.id ≠ x.id := h.ne_of_split rfl (.inl (by rw [hA]; simp))
    rw [hstore _ hne, h.linked _ _ _ hs, hA]
    simp only [Option.map_some]
    rw [bridge_left (fun a ha => h.ne_of_split hs (.inr (List.mem_append_left _ ha)))
      (fun b hb => h.ne_of_split hs (.inr (List.mem_append_right _ (List.mem_cons_of_mem _ hb))))]
    cases m with
    | nil => simp
    | cons a m => simp [firstSlot]
  · have hs : left ++ x :: right = (left ++ x :: m) ++ y :: r := by
      rw [hB, List.append_assoc]
      rfl
    have hne : y.id ≠ x.id := h.ne_of_split rfl (.inr (by rw [hB]; simp))
    rw [hstore _ hne, h.linked _ _ _ hs, hB]
    simp only [Option.map_some]
    rw [bridge_right (fun a ha => h.ne_of_split hs
        (.inl (List.mem_append_right _ (List.mem_cons_of_mem _ ha))))
      (fun a ha => h.ne_of_split hs (.inl (List.mem_append_left _ ha)))]
    rcases List.eq_nil_or_concat m with rfl | ⟨m, a, rfl⟩
    · simp
    · simp [lastSlot, List.getLast?_append, List.getLast?_cons]

theorem remove_spec (h : d.Represents (left ++ x :: right)) (invalidate : Bool) :
    ∃ d', d.remove x.id invalidate = some (x.value, d') ∧ d'.Represents (left ++ right) ∧
      d'.mode = d.mode ∧ d'.store.length = d.store.length ∧
      d'.cursor = if invalidate ∧ d.cursor.node = some x.id then { d.cursor with node := none }
        else d.cursor := by
  have hx : x ∈ left ++ x :: right := by simp
  have hstored := h.linked left x right rfl
  have hnode := h.node_slot hx
  let d₁ := d.onNode x.id fun n => { n with previous := none, next := none }
  have hlive : ∀ a, a ∈ left ∨ a ∈ right → d₁.node a.slot = some a.id ∧ some x.id ≠ some a.id := by
    intro a ha
    refine ⟨h.node_slot (mem_insert.2 (.inr (List.mem_append.2 ha))), fun he => ?_⟩
    exact h.ne_of_split rfl ha (Option.some.inj he).symm
  obtain ⟨d₂, d₃, hnext, hprev, hre⟩ := relink_spec d₁ left right (some x.id) (firstSlot right)
    (lastSlot left) (fun a ha => hlive a (.inl ha)) (fun a ha => hlive a (.inr ha))
  obtain ⟨store, head, tail, rfl⟩ : ∃ store head tail, d₃ = { d₁ with store, head, tail } :=
    ⟨_, _, _, hre.rest⟩
  have hremove : d.remove x.id invalidate = some (x.value, onNode { d with
      store, head, tail
      nodes := d.nodes.set x.slot none
      free := d.free ++ [x.slot]
      len := d.len - 1
      cursor := if invalidate ∧ d.cursor.node = some x.id then { d.cursor with node := none }
        else d.cursor } x.id fun n => { n with value := default }) := by
    simp only [Deque.remove, hstored, hnode, if_true, Option.bind_eq_bind]
    change (d₁.linkNext (some x.id) (lastSlot left) (firstSlot right)).bind _ = _
    rw [hnext, Option.bind_some, hprev]
    rfl
  have hother : ∀ k, k ≠ x.id → (store.modify x.id fun n => { n with value := default })[k]? =
      (d.store[k]?).map (bridge left right (firstSlot right) (lastSlot left) k) := by
    intro k hk
    rw [List.getElem?_modify_ne _ _ (Ne.symm hk), hre.store k]
    simp [d₁, onNode, Ne.symm hk]
  have hself : (store.modify x.id fun n => { n with value := default })[x.id]? =
      some ⟨x.slot, none, none, default⟩ := by
    rw [List.getElem?_modify_eq, hre.store]
    simp only [d₁, onNode, List.getElem?_modify_eq, hstored, Option.map_eq_map, Option.map_some]
    rw [bridge_away (fun a ha => h.ne_of_split rfl (.inl ha))
      (fun b hb => h.ne_of_split rfl (.inr hb))]
  have hslot : d.nodes[x.slot]? = some (some x.id) := by
    simpa [node, Option.join_eq_some_iff] using hnode
  have hlt := (List.getElem?_eq_some_iff.1 hslot).1
  refine ⟨_, hremove, ?_, rfl, ?_, rfl⟩
  · refine ⟨Linked.remove h hother, fun s k => ?_, ?_, ?_, ?_, ?_, ?_, fun s => ?_,
      fun k m hk hm => ?_⟩
    · change ((d.nodes.set x.slot none)[s]?).join = some k ↔ _
      by_cases hs : s = x.slot
      · subst hs
        simp only [List.getElem?_set_self hlt, Option.join_some, reduceCtorEq, false_iff]
        rintro ⟨y, hy, hys, -⟩
        have := h.eq_of_slot (mem_insert.2 (.inr hy)) hx hys
        exact h.ne_of_split rfl (List.mem_append.1 hy) (congrArg Element.id this)
      · rw [List.getElem?_set_ne (Ne.symm hs)]
        refine (h.occupied s k).trans ?_
        constructor
        · rintro ⟨y, hy, hys, hk⟩
          rcases mem_insert.1 hy with rfl | hy
          · exact absurd hys.symm hs
          · exact ⟨y, hy, hys, hk⟩
        · rintro ⟨y, hy, hys⟩
          exact ⟨y, mem_insert.2 (.inr hy), hys⟩
    · have := h.nodup
      rw [List.map_append, List.map_cons] at this
      rw [List.map_append]
      exact (List.nodup_cons.1 (List.perm_middle.nodup_iff.1 this)).2
    · refine hre.head.trans ?_
      cases left with
      | nil => rfl
      | cons a left => exact h.head
    · refine hre.tail.trans ?_
      cases right with
      | nil => simp
      | cons b right =>
        rw [if_neg (List.cons_ne_nil _ _), lastSlot_append_cons]
        refine h.tail.trans ?_
        rw [lastSlot_append_cons]
        simp [lastSlot, List.getLast?_cons]
    · change d.len - 1 = _
      rw [h.len]
      simp
    · refine List.nodup_append.2 ⟨h.freeNodup, List.nodup_cons.2 ⟨List.not_mem_nil, List.nodup_nil⟩,
        fun a ha b hb hab => ?_⟩
      rw [hab, List.mem_singleton.1 hb] at ha
      cases hslot.symm.trans ((h.dead _).1 ha)
    · change s ∈ d.free ++ [x.slot] ↔ (d.nodes.set x.slot none)[s]? = some none
      by_cases hs : s = x.slot
      · subst hs
        simp [hlt]
      · rw [List.getElem?_set_ne (Ne.symm hs), ← h.dead]
        simp [hs]
    · by_cases hkx : k = x.id
      · subst hkx
        cases hself.symm.trans hk
        exact ⟨rfl, rfl⟩
      · have hk' := (hother k hkx).symm.trans hk
        obtain ⟨m', hm', rfl⟩ := Option.map_eq_some_iff.1 hk'
        rw [bridge_away (fun a ha => hm a (List.mem_append_left _ ha))
          (fun b hb => hm b (List.mem_append_right _ hb))]
        refine h.stale k m' hm' fun y hy => ?_
        rcases mem_insert.1 hy with rfl | hy
        · exact Ne.symm hkx
        · exact hm y hy
  · have := hre.length
    simpa [d₁, onNode] using this

end

/-- The links of the element at an index. -/
theorem Represents.link_at (h : d.Represents seq) {i : Nat} (hx : seq[i]? = some x) :
    d.store[x.id]? = some ⟨x.slot, if i = 0 then none else (seq[i - 1]?).map Element.slot,
      (seq[i + 1]?).map Element.slot, x.value⟩ := by
  obtain ⟨hlt, rfl⟩ := List.getElem?_eq_some_iff.1 hx
  have hs : seq = seq.take i ++ seq[i] :: seq.drop (i + 1) := by
    rw [← List.drop_eq_getElem_cons hlt, List.take_append_drop]
  rw [h.linked _ _ _ hs, firstSlot, List.head?_drop, lastSlot, List.getLast?_take]
  by_cases hi : i = 0
  · simp [hi]
  · have hprev : seq[i - 1]? = some seq[i - 1] := List.getElem?_eq_getElem (by omega)
    simp [hi, hprev]

theorem Represents.walk_next (h : d.Represents seq) (steps : Nat) {i : Nat}
    (hx : seq[i]? = some x) (hlt : i + steps < seq.length) :
    d.walk false steps x.slot = some ((seq[i + steps]?).map Element.id) := by
  induction steps generalizing i x with
  | zero =>
    rw [walk, h.node_slot (List.mem_of_getElem? hx), Nat.add_zero, hx]
    rfl
  | succ steps ih =>
    have hnext : seq[i + 1]? = some seq[i + 1] := List.getElem?_eq_getElem (by omega)
    simp only [walk, h.node_slot (List.mem_of_getElem? hx), h.link_at hx, hnext, Bool.false_eq_true,
      if_false, Option.map_some]
    rw [ih hnext (by omega), Nat.add_right_comm, Nat.add_assoc]

theorem Represents.walk_previous (h : d.Represents seq) (steps : Nat) {i : Nat}
    (hx : seq[i]? = some x) (hle : steps ≤ i) :
    d.walk true steps x.slot = some ((seq[i - steps]?).map Element.id) := by
  induction steps generalizing i x with
  | zero =>
    rw [walk, h.node_slot (List.mem_of_getElem? hx), Nat.sub_zero, hx]
    rfl
  | succ steps ih =>
    have hlt := (List.getElem?_eq_some_iff.1 hx).1
    have hprev : seq[i - 1]? = some seq[i - 1] := List.getElem?_eq_getElem (by omega)
    simp only [walk, h.node_slot (List.mem_of_getElem? hx), h.link_at hx, hprev, if_true,
      if_neg (show i ≠ 0 by omega), Option.map_some]
    rw [ih hprev (by omega), Nat.sub_sub, Nat.add_comm 1]

/-- A sequence in the direction of a mode. -/
def directed (mode : Nat) (l : List α) : List α := if isLifo mode then l.reverse else l

theorem nodeAt_spec (h : d.Represents seq) (index : Nat) :
    d.nodeAt index = some (((directed d.mode seq)[index]?).map Element.id) := by
  unfold nodeAt
  by_cases hge : index ≥ d.len
  · have hnone : (directed d.mode seq)[index]? = none := by
      rw [h.len] at hge
      refine List.getElem?_eq_none ?_
      unfold directed
      split <;> simpa using hge
    rw [if_pos hge, hnone]
    rfl
  · rw [if_neg hge, h.len]
    rw [h.len] at hge
    generalize hphys : (if isLifo d.mode = true then seq.length - 1 - index else index) = physical
    have hplt : physical < seq.length := by
      rw [← hphys]
      split <;> omega
    have hdir : (directed d.mode seq)[index]? = seq[physical]? := by
      unfold directed
      split
      · rename_i hl
        rw [if_pos hl] at hphys
        rw [List.getElem?_reverse (by omega), ← hphys]
      · rename_i hl
        rw [if_neg hl] at hphys
        rw [← hphys]
    rw [hdir]
    by_cases htail : physical > seq.length / 2
    · have hlast : seq[seq.length - 1]? = some seq[seq.length - 1] :=
        List.getElem?_eq_getElem (by omega)
      have hslot : d.tail = some seq[seq.length - 1].slot := by
        rw [h.tail, lastSlot, List.getLast?_eq_getElem?, hlast]
        rfl
      simp only [htail, decide_true, if_true, hslot]
      rw [h.walk_previous _ hlast (by omega)]
      congr 3
      omega
    · have hfirst : seq[0]? = some seq[0] := List.getElem?_eq_getElem (by omega)
      have hslot : d.head = some seq[0].slot := by
        rw [h.head, firstSlot, List.head?_eq_getElem?, hfirst]
        rfl
      simp only [htail, decide_false, Bool.false_eq_true, if_false, hslot]
      rw [h.walk_next _ hfirst (by omega), Nat.zero_add]

/-- A link leads to the node of its element. -/
theorem Represents.nodeOf_slot (h : d.Represents seq) {o : Option (Element V)}
    (ho : ∀ x ∈ o, x ∈ seq) : d.nodeOf (o.map Element.slot) = some (o.map Element.id) := by
  cases o with
  | none => rfl
  | some x => simp [nodeOf, h.node_slot (ho x rfl)]

theorem rewind_spec (h : d.Represents seq) (mode : Nat) :
    d.rewind mode = some ⟨(directed mode seq).head?.map Element.id,
      I64.wrap (if isLifo mode then seq.length - 1 else 0)⟩ := by
  unfold rewind directed
  split
  · rw [h.tail, lastSlot, h.nodeOf_slot fun x hx => List.mem_of_getLast? hx, List.head?_reverse,
      h.len]
    rfl
  · rw [h.head, firstSlot, h.nodeOf_slot fun x hx => List.mem_of_head? hx]
    rfl

/-- The element next to a given one, in a plain sequence; an element that is gone has none. -/
def neighbour (items : List (Nat × V)) (reverse : Bool) (id : Nat) : Option Nat :=
  match items.findIdx? fun e => e.1 = id with
  | none => none
  | some i =>
    if reverse then if i = 0 then none else (items[i - 1]?).map Prod.fst
    else (items[i + 1]?).map Prod.fst

/-- What a plain sequence shows of its elements. -/
def items (seq : List (Element V)) : List (Nat × V) := seq.map fun x => (x.id, x.value)

theorem Represents.nodeOf_link (h : d.Represents seq) {k : Nat} (hk : d.store[k]? = some n)
    (reverse : Bool) : d.nodeOf (if reverse then n.previous else n.next) =
      some (neighbour (items seq) reverse k) := by
  unfold neighbour
  cases hi : (items seq).findIdx? fun e => e.1 = k with
  | none =>
    have hout : ∀ x ∈ seq, x.id ≠ k := by
      intro x hx
      have := List.findIdx?_eq_none_iff.1 hi (x.id, x.value) (List.mem_map_of_mem hx)
      simpa using this
    obtain ⟨hp, hn⟩ := h.stale k n hk hout
    rw [hp, hn, ite_self]
    rfl
  | some i =>
    obtain ⟨hlt, hpred, -⟩ := List.findIdx?_eq_some_iff_getElem.1 hi
    have hlt' : i < seq.length := by simpa [items] using hlt
    have hid : seq[i].id = k := by simpa [items] using hpred
    have hx : seq[i]? = some seq[i] := List.getElem?_eq_getElem hlt'
    have hstore := h.link_at hx
    rw [hid, hk] at hstore
    cases hstore
    have hitem : ∀ j : Nat, ((items seq)[j]?).map Prod.fst = (seq[j]?).map Element.id := by
      intro j
      simp [items, Function.comp_def]
    cases reverse with
    | true =>
      by_cases hz : i = 0
      · simp [hz, nodeOf]
      · simp only [if_true, hz, if_false, hitem]
        exact h.nodeOf_slot fun x hx => List.mem_of_getElem? hx
    | false =>
      simp only [Bool.false_eq_true, if_false, hitem]
      exact h.nodeOf_slot fun x hx => List.mem_of_getElem? hx

section
variable [Inhabited V]

/-- The end that a deleting traversal removes. -/
theorem remove_end (h : d.Represents seq) (reverse : Bool) :
    ∃ d', (match d.nodeOf (if reverse then d.tail else d.head) with
        | none => none
        | some none => some (none, d)
        | some (some k) => (d.remove k false).map fun r => (some r.1, r.2)) =
          some ((if reverse then seq.getLast? else seq.head?).map Element.value, d') ∧
      d'.Represents (if reverse then seq.dropLast else seq.tail) ∧ d'.mode = d.mode ∧
      d'.cursor = d.cursor ∧ d'.store.length = d.store.length := by
  cases reverse with
  | true =>
    rcases List.eq_nil_or_concat seq with rfl | ⟨l, x, rfl⟩
    · exact ⟨d, by simp [h.tail, nodeOf], by simpa using h, rfl, rfl, rfl⟩
    · rw [List.concat_eq_append] at h
      obtain ⟨d', hd', hrep, hmode, hlen, hcur⟩ := remove_spec h false
      refine ⟨d', ?_, by simpa using hrep, hmode, by simpa using hcur, hlen⟩
      simp [h.tail, nodeOf, h.node_slot (show x ∈ l ++ [x] by simp), hd']
  | false =>
    cases seq with
    | nil => exact ⟨d, by simp [h.head, nodeOf], by simpa using h, rfl, rfl, rfl⟩
    | cons x r =>
      have h' : d.Represents ([] ++ x :: r) := h
      obtain ⟨d', hd', hrep, hmode, hlen, hcur⟩ := remove_spec h' false
      refine ⟨d', ?_, by simpa using hrep, hmode, by simpa using hcur, hlen⟩
      simp [h.head, nodeOf, h.node_slot (show x ∈ x :: r by simp), hd']

theorem advance_spec (h : d.Represents seq) (hid : position.node = some k)
    (hk : k < d.store.length) (mode : Nat) (backward : Bool) :
    ∃ d', d.advance position mode backward =
        some (⟨neighbour (items seq) (isLifo mode ^^ backward) k,
            advanceKey position.key mode (isLifo mode ^^ backward)⟩,
          if isDelete mode then
            (if isLifo mode ^^ backward then seq.getLast? else seq.head?).map Element.value
          else none, d') ∧
      d'.Represents (if isDelete mode then
        if isLifo mode ^^ backward then seq.dropLast else seq.tail else seq) ∧
      d'.mode = d.mode ∧ d'.cursor = d.cursor ∧ d'.store.length = d.store.length := by
  generalize hrev : (isLifo mode ^^ backward) = reverse
  have hstore : d.store[k]? = some d.store[k] := List.getElem?_eq_getElem hk
  simp only [advance, hid, hrev, hstore, Option.bind_eq_bind, Option.bind_some,
    h.nodeOf_link hstore reverse]
  by_cases hdel : isDelete mode = true
  · obtain ⟨d', hend, hrest⟩ := remove_end h reverse
    simp only [if_pos hdel]
    refine ⟨d', ?_, hrest⟩
    cases hnode : d.nodeOf (if reverse then d.tail else d.head) with
    | none => simp [hnode] at hend
    | some o =>
      rw [hnode] at hend
      cases o with
      | none =>
        simp only [Option.some.injEq, Prod.mk.injEq] at hend
        simp [hend]
      | some last =>
        obtain ⟨⟨value, d''⟩, hr, he⟩ := Option.map_eq_some_iff.1 hend
        simp only [Prod.mk.injEq] at he
        simp [hr, he]
  · simp only [if_neg hdel]
    exact ⟨d, rfl, h, rfl, rfl, rfl⟩

end

end Deque

end Rphp.Stdlib
