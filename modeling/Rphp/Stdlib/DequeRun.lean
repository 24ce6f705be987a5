import Rphp.Stdlib.DequeRefinement

namespace Rphp.Stdlib
open Lib
set_option autoImplicit true

/-- A list with the cursors of the loops that are running over it. -/
structure DequeWorld (V : Type) where
  deque : Deque V := {}
  cursors : List Position := []

inductive DequeOp (V : Type) where
  | push (value : V)
  | unshift (value : V)
  | add (index : Nat) (value : V)
  | remove (node : Nat) (invalidateManual : Bool)
  | setMode (mode : Nat)
  | rewind
  | advance (backward : Bool)
  | openCursor
  | rewindCursor (cursor mode : Nat)
  | advanceCursor (cursor mode : Nat) (backward : Bool)

namespace DequeWorld
variable [Inhabited V]

/-- An index behind the end is refused by the caller of `add`. -/
def add (d : Deque V) (index : Nat) (value : V) : Option (Deque V) :=
  if index > d.len then some d
  else
    match d.nodeAt index with
    | none => none
    | some none => d.insertBefore none value
    | some (some id) =>
      match d.store[id]? with
      | none => none
      | some n => d.insertBefore (some n.slot) value

/-- One call; a panic ends the run. The manual cursor is taken out of the list while it moves. -/
def step (w : DequeWorld V) : DequeOp V → Option (DequeWorld V)
  | .push value => (w.deque.insertBefore none value).map fun d => { w with deque := d }
  | .unshift value => (w.deque.insertBefore w.deque.head value).map fun d => { w with deque := d }
  | .add index value => (add w.deque index value).map fun d => { w with deque := d }
  | .remove node invalidateManual =>
    if node < w.deque.store.length then
      (w.deque.remove node invalidateManual).map fun r => { w with deque := r.2 }
    else some w
  | .setMode mode => some { w with deque := { w.deque with mode } }
  | .rewind =>
    (w.deque.rewind w.deque.mode).map fun p => { w with deque := { w.deque with cursor := p } }
  | .advance backward =>
    (Deque.advance { w.deque with cursor := {} } w.deque.cursor w.deque.mode backward).map
      fun (p, _, d) => { w with deque := { d with cursor := p } }
  | .openCursor => some { w with cursors := w.cursors ++ [{}] }
  | .rewindCursor cursor mode =>
    (w.deque.rewind mode).map fun p => { w with cursors := w.cursors.set cursor p }
  | .advanceCursor cursor mode backward =>
    match w.cursors[cursor]? with
    | none => some w
    | some position =>
      (w.deque.advance position mode backward).map fun (p, _, d) =>
        { deque := d, cursors := w.cursors.set cursor p }

end DequeWorld

/-- The sequence that a list stands for: elements with an identity, and the same cursors. -/
structure PlainWorld (V : Type) where
  items : List (Nat × V) := []
  made : Nat := 0
  mode : Nat := 0
  cursor : Position := {}
  cursors : List Position := []

namespace PlainWorld

def insertAt (p : PlainWorld V) (i : Nat) (value : V) : PlainWorld V :=
  { p with items := p.items.take i ++ (p.made, value) :: p.items.drop i, made := p.made + 1 }

/-- An index counts from the other end in a stack, and its length is behind the last element. -/
def add (p : PlainWorld V) (index : Nat) (value : V) : PlainWorld V :=
  if index > p.items.length then p
  else if index = p.items.length then p.insertAt index value
  else p.insertAt (if isLifo p.mode then p.items.length - 1 - index else index) value

def start (p : PlainWorld V) (mode : Nat) : Position :=
  ⟨(Deque.directed mode p.items).head?.map Prod.fst,
    I64.wrap (if isLifo mode then p.items.length - 1 else 0)⟩

/-- Move a cursor, and drop the end the traversal started from if it deletes. -/
def move (p : PlainWorld V) (position : Position) (mode : Nat) (backward : Bool) :
    Position × List (Nat × V) :=
  match position.node with
  | none => (position, p.items)
  | some id =>
    let reverse := isLifo mode ^^ backward
    (⟨Deque.neighbour p.items reverse id, Deque.advanceKey position.key mode reverse⟩,
      if isDelete mode then if reverse then p.items.dropLast else p.items.tail else p.items)

def step (p : PlainWorld V) : DequeOp V → PlainWorld V
  | .push value => p.insertAt p.items.length value
  | .unshift value => p.insertAt 0 value
  | .add index value => p.add index value
  | .remove node invalidateManual =>
    { p with
      items := p.items.filter fun e => e.1 ≠ node
      cursor := if invalidateManual ∧ p.cursor.node = some node ∧ ∃ e ∈ p.items, e.1 = node then
        { p.cursor with node := none } else p.cursor }
  | .setMode mode => { p with mode }
  | .rewind => { p with cursor := p.start p.mode }
  | .advance backward =>
    { p with
      cursor := (p.move p.cursor p.mode backward).1
      items := (p.move p.cursor p.mode backward).2 }
  | .openCursor => { p with cursors := p.cursors ++ [{}] }
  | .rewindCursor cursor mode => { p with cursors := p.cursors.set cursor (p.start mode) }
  | .advanceCursor cursor mode backward =>
    match p.cursors[cursor]? with
    | none => p
    | some position =>
      { p with
        cursors := p.cursors.set cursor (p.move position mode backward).1
        items := (p.move position mode backward).2 }

theorem step_remove_gone {p : PlainWorld V} (h : ∀ e ∈ p.items, e.1 ≠ k) :
    p.step (.remove k invalidate) = p := by
  have hnone : ¬∃ e ∈ p.items, e.1 = k := fun ⟨e, he, hek⟩ => h e he hek
  simp only [step, hnone, and_false, if_false]
  rw [List.filter_eq_self.2 fun e he => by simpa using h e he]

end PlainWorld

/-- A cursor on a node that was made. -/
def Position.Known (made : Nat) (position : Position) : Prop := ∀ k ∈ position.node, k < made

theorem Position.Known.mono {position : Position} (h : position.Known m) (hle : m ≤ n) :
    position.Known n := fun k hk => (h k hk).trans_le hle

/-- The arena behaves as the sequence. -/
structure Refines (w : DequeWorld V) (p : PlainWorld V) : Prop where
  represented : ∃ seq, w.deque.Represents seq ∧ Deque.items seq = p.items
  made : w.deque.store.length = p.made
  mode : w.deque.mode = p.mode
  cursor : w.deque.cursor = p.cursor
  cursors : w.cursors = p.cursors
  known : p.cursor.Known p.made
  allKnown : ∀ c ∈ p.cursors, c.Known p.made

namespace Refines
open Deque

@[simp] theorem items_append (l r : List (Element V)) : items (l ++ r) = items l ++ items r := by
  simp [items]

@[simp] theorem items_cons (x : Element V) (r : List (Element V)) :
    items (x :: r) = (x.id, x.value) :: items r := rfl

@[simp] theorem items_length (l : List (Element V)) : (items l).length = l.length := by
  simp [items]

theorem items_take (l : List (Element V)) (i : Nat) : items (l.take i) = (items l).take i := by
  simp [items]

theorem items_drop (l : List (Element V)) (i : Nat) : items (l.drop i) = (items l).drop i := by
  simp [items]

variable {w : DequeWorld V} {p : PlainWorld V}

/-- A value is put in front of the element at a place, or at the end. -/
theorem insertAt (h : Refines w p) (hrep : w.deque.Represents seq) (hitems : items seq = p.items)
    (i : Nat) (value : V) :
    ∃ d, w.deque.insertBefore (firstSlot (seq.drop i)) value = some d ∧
      Refines { w with deque := d } (p.insertAt i value) := by
  have hsplit : w.deque.Represents (seq.take i ++ seq.drop i) := by
    rwa [List.take_append_drop]
  obtain ⟨d, slot, hd, hrep', hmode, hcur, hlen⟩ := insertBefore_spec hsplit value
  refine ⟨d, hd, ⟨_, hrep', ?_⟩, ?_, hmode.trans h.mode, hcur.trans h.cursor, h.cursors, ?_, ?_⟩
  · simp [PlainWorld.insertAt, items_take, items_drop, hitems, h.made]
  · rw [hlen, h.made]
    rfl
  · exact h.known.mono (Nat.le_succ _)
  · exact fun c hc => (h.allKnown c hc).mono (Nat.le_succ _)

theorem add [Inhabited V] (h : Refines w p) (index : Nat) (value : V) :
    ∃ d, DequeWorld.add w.deque index value = some d ∧
      Refines { w with deque := d } (p.add index value) := by
  obtain ⟨seq, hrep, hitems⟩ := h.represented
  have hlen : p.items.length = seq.length := by rw [← hitems, items_length]
  unfold DequeWorld.add PlainWorld.add
  rw [hrep.len, hlen, nodeAt_spec hrep, h.mode]
  by_cases hgt : index > seq.length
  · rw [if_pos hgt, if_pos hgt]
    exact ⟨w.deque, rfl, h⟩
  rw [if_neg hgt, if_neg hgt]
  by_cases heq : index = seq.length
  · have hnone : (directed p.mode seq)[index]? = none := by
      refine List.getElem?_eq_none ?_
      unfold directed
      split <;> simp [heq]
    rw [if_pos heq, hnone]
    simpa [heq] using h.insertAt hrep hitems index value
  · rw [if_neg heq]
    have hplace : ∃ i, (if isLifo p.mode = true then seq.length - 1 - index else index) = i ∧
        i < seq.length ∧ (directed p.mode seq)[index]? = seq[i]? := by
      refine ⟨_, rfl, ?_, ?_⟩
      · split <;> omega
      · unfold directed
        split
        · rw [List.getElem?_reverse (by omega)]
        · rfl
    obtain ⟨i, hi, hlt, hdir⟩ := hplace
    have hx : seq[i]? = some seq[i] := List.getElem?_eq_getElem hlt
    rw [hi, hdir, hx]
    simp only [Option.map_some, hrep.link_at hx]
    have hdrop : firstSlot (seq.drop i) = some seq[i].slot := by
      rw [firstSlot, List.head?_drop, hx]
      rfl
    rw [← hdrop]
    exact h.insertAt hrep hitems i value

theorem remove [Inhabited V] (h : Refines w p) (k : Nat) (hk : k < w.deque.store.length)
    (invalidate : Bool) :
    ∃ r, w.deque.remove k invalidate = some r ∧
      Refines { w with deque := r.2 } (p.step (.remove k invalidate)) := by
  obtain ⟨seq, hrep, hitems⟩ := h.represented
  by_cases hin : ∃ x ∈ seq, x.id = k
  · obtain ⟨x, hx, rfl⟩ := hin
    obtain ⟨left, right, rfl⟩ := List.append_of_mem hx
    obtain ⟨d, hd, hrep', hmode, hlen, hcur⟩ := remove_spec hrep invalidate
    have hmem : ∃ e ∈ p.items, e.1 = x.id := ⟨(x.id, x.value), by simp [← hitems], rfl⟩
    have hside : ∀ l : List (Element V), (∀ y ∈ l, y.id ≠ x.id) →
        (items l).filter (fun e => e.1 ≠ x.id) = items l := by
      intro l hl
      rw [List.filter_eq_self]
      intro e he
      obtain ⟨y, hy, rfl⟩ := List.mem_map.1 he
      simpa using hl y hy
    refine ⟨(x.value, d), hd, ⟨_, hrep', ?_⟩, hlen.trans h.made, hmode.trans h.mode, ?_, h.cursors,
      ?_, h.allKnown⟩
    · simp only [PlainWorld.step, ← hitems, items_append, items_cons, List.filter_append]
      rw [List.filter_cons_of_neg (by simp), hside left fun y hy => hrep.ne_of_split rfl (.inl hy),
        hside right fun y hy => hrep.ne_of_split rfl (.inr hy)]
    · rw [hcur, h.cursor]
      simp only [PlainWorld.step, hmem, and_true]
    · simp only [PlainWorld.step]
      split
      · exact fun k hk => nomatch hk
      · exact h.known
  · have hout : ∀ y ∈ seq, y.id ≠ k := fun y hy he => hin ⟨y, hy, he⟩
    have hgone : ∀ e ∈ p.items, e.1 ≠ k := by
      intro e he
      rw [← hitems] at he
      obtain ⟨y, hy, rfl⟩ := List.mem_map.1 he
      exact hout y hy
    rw [PlainWorld.step_remove_gone hgone]
    exact ⟨_, remove_stale hrep (List.getElem?_eq_getElem hk) hout invalidate, h⟩

theorem start_known (h : Refines w p) (mode : Nat) : (p.start mode).Known p.made := by
  obtain ⟨seq, hrep, hitems⟩ := h.represented
  intro k hk
  obtain ⟨e, he, rfl⟩ := Option.map_eq_some_iff.1 hk
  have hmem : e ∈ p.items := by
    have := List.mem_of_head? he
    unfold directed at this
    split at this
    · exact List.mem_reverse.1 this
    · exact this
  rw [← hitems] at hmem
  obtain ⟨y, hy, rfl⟩ := List.mem_map.1 hmem
  exact h.made ▸ hrep.id_lt hy

theorem rewind (h : Refines w p) (mode : Nat) : w.deque.rewind mode = some (p.start mode) := by
  obtain ⟨seq, hrep, hitems⟩ := h.represented
  rw [rewind_spec hrep, PlainWorld.start, ← hitems, items_length]
  congr 2
  unfold directed items
  split <;> simp [List.head?_map, Function.comp_def]

/-- A neighbour is an element of the sequence. -/
theorem neighbour_mem {items : List (Nat × V)} (h : neighbour items reverse k = some j) :
    ∃ e ∈ items, e.1 = j := by
  have hmem : ∀ i : Nat, (items[i]?).map Prod.fst = some j → ∃ e ∈ items, e.1 = j := by
    intro i hi
    obtain ⟨e, he, rfl⟩ := Option.map_eq_some_iff.1 hi
    exact ⟨e, List.mem_of_getElem? he, rfl⟩
  unfold neighbour at h
  split at h
  · cases h
  · split at h
    · split at h
      · cases h
      · exact hmem _ h
    · exact hmem _ h

theorem move_known (h : Refines w p) {position : Position} (hk : position.Known p.made)
    (mode : Nat) (backward : Bool) : (p.move position mode backward).1.Known p.made := by
  obtain ⟨seq, hrep, hitems⟩ := h.represented
  unfold PlainWorld.move
  split
  · exact hk
  · intro j hj
    obtain ⟨e, he, rfl⟩ := neighbour_mem hj
    rw [← hitems] at he
    obtain ⟨y, hy, rfl⟩ := List.mem_map.1 he
    exact h.made ▸ hrep.id_lt hy

theorem advance [Inhabited V] (h : Refines w p) {position : Position}
    (hk : position.Known p.made) (mode : Nat) (backward : Bool) :
    ∃ value d, w.deque.advance position mode backward =
        some ((p.move position mode backward).1, value, d) ∧
      Refines { w with deque := d } { p with items := (p.move position mode backward).2 } := by
  obtain ⟨seq, hrep, hitems⟩ := h.represented
  cases hnode : position.node with
  | none =>
    refine ⟨none, w.deque, ?_, ?_⟩
    · simp [Deque.advance, PlainWorld.move, hnode]
    · simpa [PlainWorld.move, hnode] using h
  | some k =>
    have hlt : k < w.deque.store.length := h.made ▸ hk k hnode
    obtain ⟨d, hd, hrep', hmode, hcur, hlen⟩ := advance_spec hrep hnode hlt mode backward
    have hmove : (p.move position mode backward).1 =
        ⟨neighbour (items seq) (isLifo mode ^^ backward) k,
          advanceKey position.key mode (isLifo mode ^^ backward)⟩ := by
      simp only [PlainWorld.move, hnode, hitems]
    refine ⟨_, d, hmove ▸ hd, ⟨_, hrep', ?_⟩, hlen.trans h.made, hmode.trans h.mode,
      hcur.trans h.cursor, h.cursors, h.known, h.allKnown⟩
    simp only [PlainWorld.move, hnode, ← hitems]
    split
    · split <;> simp [items]
    · rfl

/-- The cursor that is moved is out of the list for that time. -/
theorem setCursor (h : Refines w p) {position : Position} (hk : position.Known p.made) :
    Refines { w with deque := { w.deque with cursor := position } } { p with cursor := position } := by
  obtain ⟨seq, hrep, hitems⟩ := h.represented
  exact ⟨⟨seq, ⟨hrep.linked, hrep.occupied, hrep.nodup, hrep.head, hrep.tail, hrep.len,
    hrep.freeNodup, hrep.dead, hrep.stale⟩, hitems⟩, h.made, h.mode, rfl, h.cursors, hk, h.allKnown⟩

theorem setMode (h : Refines w p) (mode : Nat) :
    Refines { w with deque := { w.deque with mode } } { p with mode } := by
  obtain ⟨seq, hrep, hitems⟩ := h.represented
  exact ⟨⟨seq, ⟨hrep.linked, hrep.occupied, hrep.nodup, hrep.head, hrep.tail, hrep.len,
    hrep.freeNodup, hrep.dead, hrep.stale⟩, hitems⟩, h.made, rfl, h.cursor, h.cursors, h.known,
    h.allKnown⟩

theorem setLoop (h : Refines w p) (cursor : Nat) {position : Position}
    (hk : position.Known p.made) :
    Refines { w with cursors := w.cursors.set cursor position }
      { p with cursors := p.cursors.set cursor position } := by
  refine ⟨h.represented, h.made, h.mode, h.cursor, by rw [h.cursors], h.known, fun c hc => ?_⟩
  rcases List.mem_or_eq_of_mem_set hc with hc | rfl
  · exact h.allKnown c hc
  · exact hk

theorem step [Inhabited V] (h : Refines w p) (op : DequeOp V) :
    ∃ w', w.step op = some w' ∧ Refines w' (p.step op) := by
  obtain ⟨seq, hrep, hitems⟩ := h.represented
  have hlen : p.items.length = seq.length := by rw [← hitems, items_length]
  cases op with
  | push value =>
    obtain ⟨d, hd, hr⟩ := h.insertAt hrep hitems seq.length value
    rw [List.drop_length, firstSlot_nil] at hd
    refine ⟨{ w with deque := d }, by simp only [DequeWorld.step, hd, Option.map_some], ?_⟩
    simpa only [PlainWorld.step, hlen] using hr
  | unshift value =>
    obtain ⟨d, hd, hr⟩ := h.insertAt hrep hitems 0 value
    rw [List.drop_zero, ← hrep.head] at hd
    exact ⟨{ w with deque := d }, by simp only [DequeWorld.step, hd, Option.map_some], hr⟩
  | add index value =>
    obtain ⟨d, hd, hr⟩ := h.add index value
    exact ⟨{ w with deque := d }, by simp only [DequeWorld.step, hd, Option.map_some], hr⟩
  | remove node invalidateManual =>
    by_cases hk : node < w.deque.store.length
    · obtain ⟨r, hd, hr⟩ := h.remove node hk invalidateManual
      exact ⟨{ w with deque := r.2 },
        by simp only [DequeWorld.step, if_pos hk, hd, Option.map_some], hr⟩
    · have hgone : ∀ e ∈ p.items, e.1 ≠ node := by
        intro e he
        rw [← hitems] at he
        obtain ⟨y, hy, rfl⟩ := List.mem_map.1 he
        exact fun heq => hk (heq ▸ hrep.id_lt hy)
      rw [PlainWorld.step_remove_gone hgone]
      exact ⟨w, by simp only [DequeWorld.step, if_neg hk], h⟩
  | setMode mode => exact ⟨_, rfl, h.setMode mode⟩
  | rewind =>
    refine ⟨{ w with deque := { w.deque with cursor := p.start p.mode } }, ?_,
      h.setCursor (h.start_known p.mode)⟩
    simp only [DequeWorld.step, h.mode, h.rewind, Option.map_some]
  | advance backward =>
    have hout : Refines { w with deque := { w.deque with cursor := {} } } { p with cursor := {} } :=
      h.setCursor (fun _ hk => nomatch hk)
    obtain ⟨value, d, hd, hr⟩ := hout.advance h.known p.mode backward
    refine ⟨{ w with deque := { d with cursor := (p.move p.cursor p.mode backward).1 } }, ?_,
      hr.setCursor (h.move_known h.known p.mode backward)⟩
    simp only [DequeWorld.step, h.mode, h.cursor]
    rw [← h.mode] at hd ⊢
    simp only [hd, Option.map_some]
    rfl
  | openCursor =>
    refine ⟨_, rfl, h.represented, h.made, h.mode, h.cursor, ?_, h.known, fun c hc => ?_⟩
    · simp only [PlainWorld.step, h.cursors]
    · rcases List.mem_append.1 hc with hc | hc
      · exact h.allKnown c hc
      · rw [List.mem_singleton.1 hc]
        nofun
  | rewindCursor cursor mode =>
    refine ⟨{ w with cursors := w.cursors.set cursor (p.start mode) }, ?_,
      h.setLoop cursor (h.start_known mode)⟩
    simp only [DequeWorld.step, h.rewind, Option.map_some]
  | advanceCursor cursor mode backward =>
    simp only [DequeWorld.step, PlainWorld.step, h.cursors]
    cases hc : p.cursors[cursor]? with
    | none => exact ⟨w, rfl, h⟩
    | some position =>
      have hk : position.Known p.made := h.allKnown _ (List.mem_of_getElem? hc)
      obtain ⟨value, d, hd, hr⟩ := h.advance hk mode backward
      refine ⟨{ deque := d, cursors := w.cursors.set cursor (p.move position mode backward).1 }, ?_,
        hr.setLoop cursor (h.move_known hk mode backward)⟩
      simp only [hd, Option.map_some, h.cursors]

end Refines

namespace Deque

/-- The values along the links from a slot. There is no result where a link leads to no node, or
where the chain is longer than expected. -/
def values (d : Deque V) (fromTail : Bool) : Nat → Option Nat → Option (List V)
  | _, none => some []
  | 0, some _ => none
  | fuel + 1, some slot => do
    let id ← d.node slot
    let n ← d.store[id]?
    let rest ← values d fromTail fuel (if fromTail then n.previous else n.next)
    return n.value :: rest

/-- The slots that hold a node. -/
def occupiedSlots (d : Deque V) : List Nat :=
  (List.range d.nodes.length).filter fun slot => (d.node slot).isSome

variable {d : Deque V} {seq : List (Element V)}

theorem Represents.values_next (h : d.Represents seq) (fuel : Nat) {i : Nat}
    (hi : i + fuel = seq.length) :
    d.values false fuel ((seq[i]?).map Element.slot) = some ((seq.drop i).map Element.value) := by
  induction fuel generalizing i with
  | zero =>
    obtain rfl : i = seq.length := hi
    simp [values]
  | succ fuel ih =>
    have hlt : i < seq.length := by omega
    have hx : seq[i]? = some seq[i] := List.getElem?_eq_getElem hlt
    have hnode := h.node_slot (List.getElem_mem hlt)
    rw [hx, Option.map_some, values, hnode, List.drop_eq_getElem_cons hlt]
    simp only [Option.bind_eq_bind, Option.bind_some, h.link_at hx, Bool.false_eq_true, if_false,
      ih (show i + 1 + fuel = seq.length by omega)]
    rfl

theorem Represents.values_previous (h : d.Represents seq) (i : Nat) (hi : i ≤ seq.length) :
    d.values true i (if i = 0 then none else (seq[i - 1]?).map Element.slot) =
      some ((seq.take i).reverse.map Element.value) := by
  induction i with
  | zero => rfl
  | succ i ih =>
    have hlt : i < seq.length := hi
    have hx : seq[i]? = some seq[i] := List.getElem?_eq_getElem hlt
    have hnode := h.node_slot (List.getElem_mem hlt)
    rw [if_neg i.succ_ne_zero, Nat.add_sub_cancel, hx, Option.map_some, values, hnode]
    simp only [Option.bind_eq_bind, Option.bind_some, h.link_at hx, if_true, ih hlt.le]
    rw [List.take_succ_eq_append_getElem hlt, List.reverse_append]
    rfl

theorem Represents.values_forward (h : d.Represents seq) :
    d.values false d.len d.head = some (seq.map Element.value) := by
  have hnext := h.values_next seq.length (Nat.zero_add _)
  rwa [← List.head?_eq_getElem?, List.drop_zero, ← h.len, ← firstSlot, ← h.head] at hnext

theorem Represents.values_backward (h : d.Represents seq) :
    d.values true d.len d.tail = some (seq.map Element.value).reverse := by
  have hback := h.values_previous seq.length le_rfl
  have htail : (if seq.length = 0 then none else (seq[seq.length - 1]?).map Element.slot) = d.tail := by
    rw [h.tail, lastSlot, List.getLast?_eq_getElem?]
    split
    · next hz => simp [List.length_eq_zero_iff.1 hz]
    · rfl
  rwa [htail, List.take_length, List.map_reverse, ← h.len] at hback

/-- No slot is lost, and none is both free and in use. -/
theorem Represents.partition (h : d.Represents seq) :
    (d.occupiedSlots ++ d.free).Perm (List.range d.nodes.length) := by
  have hfree : ∀ s, s ∈ d.free ↔ s < d.nodes.length ∧ d.node s = none := by
    intro s
    rw [h.dead]
    constructor
    · intro hs
      exact ⟨(List.getElem?_eq_some_iff.1 hs).1, by rw [node, hs]; rfl⟩
    · rintro ⟨hlt, hs⟩
      rw [node, List.getElem?_eq_getElem hlt, Option.join_some] at hs
      rw [List.getElem?_eq_getElem hlt, hs]
  refine (List.perm_ext_iff_of_nodup ?_ List.nodup_range).2 fun s => ?_
  · refine List.nodup_append.2 ⟨List.nodup_range.filter _, h.freeNodup, ?_⟩
    rintro s hs t ht rfl
    obtain ⟨-, hs⟩ := List.mem_filter.1 hs
    rw [((hfree s).1 ht).2] at hs
    cases hs
  · rw [List.mem_append, hfree, occupiedSlots, List.mem_filter, List.mem_range]
    cases d.node s <;> simp

end Deque

/-- What can be seen of a list is what can be seen of the sequence. -/
structure Observed [Inhabited V] (w : DequeWorld V) (p : PlainWorld V) : Prop where
  forward : w.deque.values false w.deque.len w.deque.head = some (p.items.map Prod.snd)
  backward : w.deque.values true w.deque.len w.deque.tail = some (p.items.map Prod.snd).reverse
  len : w.deque.len = p.items.length
  slots : (w.deque.occupiedSlots ++ w.deque.free).Perm (List.range w.deque.nodes.length)
  nodeAt : ∀ index, w.deque.nodeAt index =
    some (((Deque.directed p.mode p.items)[index]?).map Prod.fst)
  nodes : ∀ e ∈ p.items, (w.deque.store[e.1]?).map Node.value = some e.2
  rewind : ∀ mode, w.deque.rewind mode = some (p.start mode)
  stale : ∀ k < w.deque.store.length, (∀ e ∈ p.items, e.1 ≠ k) → ∀ invalidate,
    w.deque.remove k invalidate = some (default, w.deque)
  cursor : w.deque.cursor = p.cursor
  cursors : w.cursors = p.cursors

theorem Refines.observed [Inhabited V] {w : DequeWorld V} {p : PlainWorld V} (h : Refines w p) :
    Observed w p := by
  obtain ⟨seq, hrep, hitems⟩ := h.represented
  have hvalues : p.items.map Prod.snd = seq.map Element.value := by
    simp [← hitems, Deque.items, Function.comp_def]
  refine ⟨hvalues ▸ hrep.values_forward, hvalues ▸ hrep.values_backward, ?_, hrep.partition, ?_, ?_,
    h.rewind, ?_, h.cursor, h.cursors⟩
  · rw [hrep.len, ← hitems, Refines.items_length]
  · intro index
    rw [Deque.nodeAt_spec hrep, h.mode, ← hitems]
    unfold Deque.directed Deque.items
    split <;> simp [← List.map_reverse, Function.comp_def]
  · intro e he
    rw [← hitems] at he
    obtain ⟨x, hx, rfl⟩ := List.mem_map.1 he
    obtain ⟨left, right, -, hstore⟩ := hrep.stored hx
    simp [hstore]
  · intro k hk hgone invalidate
    refine Deque.remove_stale hrep (List.getElem?_eq_getElem hk) (fun y hy => ?_) invalidate
    refine hgone (y.id, y.value) ?_
    rw [← hitems]
    exact List.mem_map_of_mem hy

theorem Refines.empty : Refines ({} : DequeWorld V) {} := by
  have hrep : ({} : Deque V).Represents [] :=
    { linked := by simp [Deque.Linked]
      occupied := by simp [Deque.node]
      nodup := List.nodup_nil
      head := rfl
      tail := rfl
      len := rfl
      freeNodup := List.nodup_nil
      dead := by simp
      stale := by simp }
  exact ⟨⟨[], hrep, rfl⟩, rfl, rfl, rfl, rfl, fun _ hk => (by cases hk), fun _ hc => by cases hc⟩

theorem Refines.run [Inhabited V] (ops : List (DequeOp V)) {w : DequeWorld V} {p : PlainWorld V}
    (h : Refines w p) :
    ∃ w', Lib.run DequeWorld.step w ops = some w' ∧ Refines w' (ops.foldl PlainWorld.step p) := by
  induction ops generalizing w p with
  | nil => exact ⟨w, rfl, h⟩
  | cons op ops ih =>
    obtain ⟨u, hu, hr⟩ := h.step op
    obtain ⟨w', hw, hr⟩ := ih hr
    exact ⟨w', run_cons_eq_some.2 ⟨u, hu, hw⟩, hr⟩

/-- Every run returns, and the arena stands for the sequence that the calls describe. -/
theorem DequeWorld.run_refines_sequence [Inhabited V] (ops : List (DequeOp V)) :
    ∃ w, Lib.run DequeWorld.step {} ops = some w ∧ Observed w (ops.foldl PlainWorld.step {}) := by
  obtain ⟨w, hw, hr⟩ := Refines.empty.run ops
  exact ⟨w, hw, hr.observed⟩

end Rphp.Stdlib
