import Rphp.Stdlib.Heap
import Rphp.Lib.Run

namespace Rphp.Stdlib
open Lib
set_option autoImplicit true

namespace Heap

/-- Every slot of the arena is owned once, by the heap or by the free list. -/
structure Owned (h : Heap V) : Prop where
  length : h.order.length = h.len
  nodup : h.order.Nodup
  live : ∀ slot, slot ∈ h.order ↔ (h.entryOf slot).isSome
  freeNodup : h.free.Nodup
  dead : ∀ slot, slot ∈ h.free ↔ h.entries[slot]? = some none

/-- The entries of the heap in the order of their slots. -/
def contents (h : Heap V) : List (Entry V) := (h.order.take h.len).filterMap h.entryOf

theorem Owned.contents_eq {h : Heap V} (h' : h.Owned) :
    h.contents = h.order.filterMap h.entryOf := by
  rw [contents, ← h'.length, List.take_length]

/-- The heap and the free list partition the arena. -/
theorem Owned.partition {h : Heap V} (hown : h.Owned) :
    (h.order ++ h.free).Perm (List.range h.entries.length) := by
  have hlive : ∀ s, s ∈ h.order ↔ ∃ e, h.entries[s]? = some (some e) := by
    intro s
    rw [hown.live, Option.isSome_iff_exists]
    simp only [entryOf, Option.join_eq_some_iff]
  refine (List.perm_ext_iff_of_nodup ?_ List.nodup_range).2 fun s => ?_
  · refine List.nodup_append.2 ⟨hown.nodup, hown.freeNodup, fun a ha b hb hab => ?_⟩
    subst hab
    obtain ⟨e, he⟩ := (hlive a).1 ha
    cases he.symm.trans ((hown.dead a).1 hb)
  · rw [List.mem_append, List.mem_range, hlive, hown.dead]
    cases hs : h.entries[s]? with
    | none => simpa using hs
    | some o =>
      have hlt := (List.getElem?_eq_some_iff.1 hs).1
      cases o <;> simp [hlt]

theorem getElem?_filterMap {l : List α} {f : α → Option β} (h : ∀ a ∈ l, (f a).isSome) (i : Nat) :
    (l.filterMap f)[i]? = l[i]?.bind f := by
  induction l generalizing i with
  | nil => rfl
  | cons a l ih =>
    obtain ⟨b, hb⟩ := Option.isSome_iff_exists.1 (h a List.mem_cons_self)
    rw [List.filterMap_cons_some hb]
    cases i with
    | zero => exact hb.symm
    | succ i => exact ih (fun a ha => h a (List.mem_cons_of_mem _ ha)) i

/-- An entry was stored in a slot that was vacant. -/
structure Allocated (h h' : Heap V) (slot : Nat) (e : Entry V) : Prop where
  rest : ∃ entries free, h' = { h with entries, free }
  vacant : h.entryOf slot = none
  entry : ∀ s, h'.entryOf s = if s = slot then some e else h.entryOf s
  freeNodup : h'.free.Nodup
  dead : ∀ s, s ∈ h'.free ↔ h'.entries[s]? = some none

theorem Owned.allocate {h : Heap V} (hown : h.Owned) (e : Entry V) :
    Allocated h (h.allocate e).2 (h.allocate e).1 e := by
  unfold Heap.allocate
  cases hlast : h.free.getLast? with
  | some slot =>
    have hfree : h.free = h.free.dropLast ++ [slot] := by
      rw [List.getLast?_eq_some_iff] at hlast
      obtain ⟨l, hl⟩ := hlast
      rw [hl, List.dropLast_concat]
    have hnodup := hown.freeNodup
    rw [hfree, List.nodup_append] at hnodup
    have hnot : slot ∉ h.free.dropLast := fun hmem =>
      hnodup.2.2 slot hmem slot (List.mem_singleton_self _) rfl
    have hdead : h.entries[slot]? = some none :=
      (hown.dead slot).1 (hfree ▸ List.mem_append_right _ (List.mem_singleton_self _))
    have hlt := (List.getElem?_eq_some_iff.1 hdead).1
    refine ⟨⟨_, _, rfl⟩, by simp [entryOf, hdead], fun s => ?_, hnodup.1, fun s => ?_⟩
    · by_cases hs : s = slot
      · subst hs
        simp [entryOf, hlt]
      · simp [entryOf, hs, List.getElem?_set_ne (Ne.symm hs)]
    · by_cases hs : s = slot
      · subst hs
        simp [hnot, hlt]
      · rw [List.getElem?_set_ne (Ne.symm hs), ← hown.dead]
        conv_rhs => rw [hfree]
        simp [hs]
  | none =>
    have hnil : h.free = [] := List.getLast?_eq_none_iff.1 hlast
    refine ⟨⟨_, _, rfl⟩, by simp [entryOf], fun s => ?_, hown.freeNodup, fun s => ?_⟩
    · by_cases hs : s = h.entries.length
      · simp [entryOf, hs]
      · simp only [entryOf, hs, if_false, List.getElem?_append]
        split
        · rfl
        · rw [List.getElem?_eq_none (by simp; omega), List.getElem?_eq_none (by omega)]
    · rw [hown.dead, List.getElem?_append]
      split
      · rfl
      · rename_i hge
        rw [List.getElem?_eq_none (by omega)]
        cases hd : [some e][s - h.entries.length]? with
        | none => rfl
        | some o =>
          have := List.mem_of_getElem? hd
          simp_all

theorem begin_eq {h : Heap V} (hunlocked : h.locked = false) : h.begin =
    if h.corrupted then .error corruptedMessage else .ok { h with locked := true } := by
  simp [begin, hunlocked]

/-- A heap without its root, the tail in its place. -/
theorem filled_root_perm {h : Heap V} (horder : h.order = root :: rest) (hlen : h.order.length = h.len + 1)
    (htail : h.order[h.len]? = some tail) :
    (root :: h.filled tail 0 h.order).Perm h.order := by
  rcases List.eq_nil_or_concat rest with rfl | ⟨mid, last, rfl⟩
  · have hz : h.len = 0 := by simpa [horder] using hlen.symm
    simp [filled, horder, hz]
  · have hmid : h.len = mid.length + 1 := by simpa [horder] using hlen.symm
    have hlast : last = tail := by simpa [horder, hmid] using htail
    subst hlast
    have hfill : h.filled last 0 h.order = last :: mid := by simp [filled, horder, hmid]
    rw [hfill, horder, List.concat_eq_append]
    exact (List.perm_append_singleton last mid).symm.cons root

/-- The slot of the root goes to the free list. -/
def vacated (h : Heap V) (root n : Nat) (order : List Nat) : Heap V :=
  { h with order, len := n, free := h.free ++ [root], entries := h.entries.set root none }

theorem vacated_entry (h : Heap V) (root n : Nat) (order : List Nat) (s : Nat) :
    (h.vacated root n order).entryOf s = if s = root then none else h.entryOf s := by
  by_cases hs : s = root
  · subst hs
    by_cases hlt : s < h.entries.length <;> simp [entryOf, vacated, hlt]
  · simp [entryOf, vacated, hs, List.getElem?_set_ne (Ne.symm hs)]

theorem Owned.vacated {h : Heap V} (hown : h.Owned) (hroot : h.entryOf root = some e)
    {order : List Nat} (hperm : (root :: order).Perm h.order) (hlen : n + 1 = h.len) :
    (h.vacated root n order).Owned := by
  have hnodup := hperm.nodup_iff.2 hown.nodup
  have hentries : h.entries[root]? = some (some e) := by
    simpa [entryOf, Option.join_eq_some_iff] using hroot
  have hfree : root ∉ h.free := fun hmem => by
    cases hentries.symm.trans ((hown.dead root).1 hmem)
  refine ⟨?_, (List.nodup_cons.1 hnodup).2, fun s => ?_, ?_, fun s => ?_⟩
  · have := hperm.length_eq
    rw [List.length_cons, hown.length] at this
    change order.length = n
    omega
  · have hiff : s ∈ root :: order ↔ _ := hperm.mem_iff.trans (hown.live s)
    rw [vacated_entry]
    change s ∈ order ↔ _
    by_cases hs : s = root
    · subst hs
      simpa using (List.nodup_cons.1 hnodup).1
    · simpa [hs] using hiff
  · exact List.nodup_append.2 ⟨hown.freeNodup, List.nodup_cons.2 ⟨List.not_mem_nil, List.nodup_nil⟩,
      fun a ha b hb hab => hfree (List.mem_singleton.1 hb ▸ hab ▸ ha)⟩
  · have hlt := (List.getElem?_eq_some_iff.1 hentries).1
    change s ∈ h.free ++ [root] ↔ (h.entries.set root none)[s]? = some none
    by_cases hs : s = root
    · subst hs
      simp [hlt]
    · rw [List.getElem?_set_ne (Ne.symm hs), ← hown.dead]
      simp [hs]

theorem Owned.finish {h : Heap V} (hown : h.Owned) (ending : Ending) : (h.finish ending).Owned :=
  ⟨hown.length, hown.nodup, hown.live, hown.freeNodup, hown.dead⟩

theorem finish_healthy {h : Heap V} (hok : (h.finish ending).corrupted = false) :
    ending = .done := by
  simp only [Heap.finish, Bool.or_eq_false_iff, decide_eq_false_iff_not, ne_eq, not_not] at hok
  exact hok.2

section
variable [Inhabited V] {h : Heap V} {compare : Comparator V}

theorem keyAt_congr {h h' : Heap V} (hentry : h'.entryOf s = h.entryOf s)
    (hqueue : h'.queue = h.queue) : h'.keyAt s = h.keyAt s := by
  rw [keyAt, keyAt, hentry, hqueue]

/-- The order of the slots depends on their entries only. -/
theorem heapOrdered_congr {h k : Heap V} {l : List Nat} (hord : HeapOrdered (h.AtLeast c) l)
    (hentry : ∀ s ∈ l, k.entryOf s = h.entryOf s) (hqueue : k.queue = h.queue) :
    HeapOrdered (k.AtLeast c) l := by
  refine hord.mono fun a ha b hb hab => ?_
  rw [AtLeast, keyAt_congr (hentry a ha) hqueue, keyAt_congr (hentry b hb) hqueue]
  exact hab

/-- What an operation that was let in leaves behind. -/
structure Changed (compare : Comparator V) (h h' : Heap V) (added gone : List (Entry V)) :
    Prop where
  owned : h'.Owned
  unlocked : h'.locked = false
  queue : h'.queue = h.queue
  contents : (h'.contents ++ gone).Perm (h.contents ++ added)
  ordered : ∀ c, TotalPreorder c → Honest c compare → h'.corrupted = false →
    HeapOrdered (h.AtLeast c) h.order → HeapOrdered (h'.AtLeast c) h'.order

theorem insertEntry_spec (hown : h.Owned) (e : Entry V) :
    ∃ ending h', h.insertEntry e compare = some (ending, h') ∧ Changed compare h h' [e] [] := by
  have halloc := hown.allocate e
  unfold insertEntry
  generalize hslot : (h.allocate e).1 = slot at halloc
  generalize hnew : (h.allocate e).2 = h₁ at halloc
  have hpair : h.allocate e = (slot, h₁) := by rw [← hslot, ← hnew]
  rw [hpair]
  obtain ⟨entries, free, rfl⟩ := halloc.rest
  have hnot : slot ∉ h.order := fun hmem => by
    have := (hown.live slot).1 hmem
    rw [halloc.vacant] at this
    cases this
  have hentry : ∀ s ∈ h.order, entryOf { h with entries, free } s = h.entryOf s := by
    intro s hs
    rw [halloc.entry, if_neg fun he : s = slot => hnot (he ▸ hs)]
  have hlive : ∀ s ∈ h.order ++ [slot], (entryOf { h with entries, free } s).isSome := by
    intro s hs
    rcases List.mem_append.1 hs with hs | hs
    · rw [hentry s hs]
      exact (hown.live s).1 hs
    · rw [List.mem_singleton.1 hs, halloc.entry, if_pos rfl]
      rfl
  have hset : (h.order ++ [slot]).set h.len slot = h.order ++ [slot] := by
    rw [← hown.length, List.set_append_right _ _ (Nat.le_refl _)]
    simp
  obtain ⟨ending, order, hole, heq, hperm, hord⟩ := @percolateUp_spec V _
    { h with entries, free, order := h.order ++ [slot] } compare slot
    (hlive slot (List.mem_append_right _ (List.mem_singleton_self _))) 0 h.len hlive
    (by simp [hown.length])
  rw [hset] at hperm hord
  simp only [heq]
  refine ⟨ending, _, rfl, ?_⟩
  have hlen : (order.set hole slot).length = h.len + 1 := by
    rw [hperm.length_eq, List.length_append, hown.length, List.length_singleton]
  have hmem : ∀ s, s ∈ order.set hole slot ↔ s ∈ h.order ∨ s = slot := by
    intro s
    rw [hperm.mem_iff, List.mem_append, List.mem_singleton]
  have howned : Owned ({ h with
      entries, free, order := order.set hole slot, len := h.len + 1 }.finish ending) := by
    refine ⟨hlen, hperm.nodup_iff.2 ?_, fun s => ?_, halloc.freeNodup, halloc.dead⟩
    · exact List.nodup_append.2 ⟨hown.nodup, List.nodup_cons.2 ⟨List.not_mem_nil, List.nodup_nil⟩, fun a ha b hb =>
        fun hab => hnot (List.mem_singleton.1 hb ▸ hab ▸ ha)⟩
    · refine (hmem s).trans ?_
      have := halloc.entry s
      change _ ↔ (entryOf { h with entries, free } s).isSome
      rw [this]
      by_cases hs : s = slot
      · simp [hs]
      · simp [hs, hown.live s]
  refine ⟨howned, rfl, rfl, ?_, fun c hc hhonest hok hh => ?_⟩
  · rw [howned.contents_eq, hown.contents_eq, List.append_nil]
    have hself : entryOf { h with entries, free } slot = some e := by
      rw [halloc.entry, if_pos rfl]
    have hsplit : (h.order ++ [slot]).filterMap (entryOf { h with entries, free }) =
        h.order.filterMap h.entryOf ++ [e] := by
      rw [List.filterMap_append, List.filterMap_congr hentry]
      simp [hself]
    rw [← hsplit]
    exact hperm.filterMap (entryOf { h with entries, free })
  · have hdone := finish_healthy hok
    have hh' := heapOrdered_congr (k := { h with entries, free }) hh hentry rfl
    exact hord c hc hhonest hdone (hown.length ▸ hh'.append slot)

theorem remove_spec (hown : h.Owned) (hunlocked : h.locked = false)
    (hhealthy : h.corrupted = false) (hpos : h.len ≠ 0) (take : Bool) (retirement : Ending) :
    ∃ reply h' root e, h.remove take retirement compare = some (reply, h', some e) ∧
      Changed compare h h' [] [e] ∧ h.order[0]? = some root ∧ h.entryOf root = some e ∧
      (take → reply = .failed ∨ reply = .value (h.project e)) := by
  obtain ⟨root, rest, horder⟩ := List.exists_cons_of_length_pos
    (Nat.pos_of_ne_zero (hown.length ▸ hpos))
  have hroot : h.order[0]? = some root := by rw [horder]; rfl
  obtain ⟨tail, htail⟩ : ∃ a, h.order[h.len - 1]? = some a :=
    ⟨_, List.getElem?_eq_getElem (by rw [hown.length]; omega)⟩
  obtain ⟨e, he⟩ := Option.isSome_iff_exists.1
    ((hown.live root).1 (List.mem_of_getElem? hroot))
  let h₁ : Heap V := { h with locked := true, len := h.len - 1 }
  obtain ⟨ending, order, hole, heq, hperm, hord⟩ : ∃ ending order hole,
      (if retirement = .done then h₁.percolateDown compare tail 0 0
        else some (retirement, h₁, 0)) = some (ending, { h₁ with order := order }, hole) ∧
      (h₁.filled tail hole order).Perm (h₁.filled tail 0 h.order) ∧
      ∀ c, TotalPreorder c → Honest c compare → ending = .done →
        DownOrdered (h.AtLeast c) (h₁.filled tail 0 h.order) 0 →
        HeapOrdered (h.AtLeast c) (h₁.filled tail hole order) := by
    by_cases hr : retirement = .done
    · rw [if_pos hr]
      exact percolateDown_spec tail 0 0 (fun s hs => (hown.live s).1 hs) htail (Nat.zero_le _)
    · rw [if_neg hr]
      exact ⟨retirement, h.order, 0, rfl, List.Perm.refl _, fun c _ _ hd => absurd hd hr⟩
  have hfinal : (order.set hole tail).take (h.len - 1) = h₁.filled tail hole order := by
    rw [filled, List.take_set]
  have hall : (root :: h₁.filled tail hole order).Perm h.order :=
    (hperm.cons root).trans (filled_root_perm (h := h₁) horder
      (by change h.order.length = h.len - 1 + 1; rw [hown.length]; omega) htail)
  have hvac : (h.vacated root (h.len - 1) (h₁.filled tail hole order)).Owned :=
    hown.vacated he hall (by omega)
  have hout : root ∉ h₁.filled tail hole order :=
    (List.nodup_cons.1 (hall.nodup_iff.2 hown.nodup)).1
  have hentry : ∀ s ∈ h₁.filled tail hole order,
      (h.vacated root (h.len - 1) (h₁.filled tail hole order)).entryOf s = h.entryOf s := by
    intro s hs
    rw [vacated_entry, if_neg fun hr : s = root => hout (hr ▸ hs)]
  have hremove : h.remove take retirement compare =
      some (if ending = .failed then .failed else if take then .value (h.project e) else .null,
        (h.vacated root (h.len - 1) (h₁.filled tail hole order)).finish ending, some e) := by
    unfold remove
    rw [begin_eq hunlocked, if_neg (by simp [hhealthy])]
    simp only [hpos, if_false, hroot, htail]
    have hlocked : ({ h with locked := true } : Heap V).entryOf root = some e := he
    rw [hlocked, ← hfinal]
    simp only [h₁] at heq
    simp only [heq]
    rfl
  refine ⟨_, _, root, e, hremove, ⟨?_, rfl, rfl, ?_, fun c hc hhonest hok hh => ?_⟩, hroot, he,
    fun htake => ?_⟩
  · exact hvac.finish ending
  · rw [(hvac.finish ending).contents_eq, hown.contents_eq, List.append_nil]
    have hsplit : (root :: h₁.filled tail hole order).filterMap h.entryOf =
        e :: (h₁.filled tail hole order).filterMap
          (h.vacated root (h.len - 1) (h₁.filled tail hole order)).entryOf := by
      rw [List.filterMap_cons_some he, List.filterMap_congr hentry]
    exact (List.perm_append_singleton e _).trans (hsplit ▸ hall.filterMap h.entryOf)
  · have hdone := finish_healthy hok
    have hdown := (hh.replaceRoot (h.len - 1) tail : DownOrdered _ (h₁.filled tail 0 h.order) 0)
    exact heapOrdered_congr (hord c hc hhonest hdone hdown) hentry rfl
  · rw [if_pos htake]
    split
    · exact .inl rfl
    · exact .inr rfl

end

end Heap

inductive HeapOp (V : Type) where
  | insert (value priority : V) (compare : Comparator V)
  | extract (compare : Comparator V)
  | next (retirement : Ending) (compare : Comparator V)
  | recover
  | setFlags (flags : Int)

/-- A heap with the entries that went in and came out so far. -/
structure HeapRun (V : Type) where
  heap : Heap V
  inserted : List (Entry V) := []
  removed : List (Entry V) := []
  everCorrupted : Bool := false

namespace HeapRun

def new (queue : Bool) : HeapRun V := { heap := .new queue }

def record (s : HeapRun V) (heap : Heap V) (inserted removed : List (Entry V)) : HeapRun V where
  heap := heap
  inserted := s.inserted ++ inserted
  removed := s.removed ++ removed
  everCorrupted := s.everCorrupted || heap.corrupted

/-- One call of a script; a panic ends the run. -/
def step [Inhabited V] (s : HeapRun V) : HeapOp V → Option (HeapRun V)
  | .insert value priority compare =>
    (s.heap.insert value priority compare).map fun (_, h) =>
      match s.heap.begin with
      | .ok _ => s.record h [⟨value, if s.heap.queue then priority else default⟩] []
      | .error _ => s.record h [] []
  | .extract compare => (s.heap.extract compare).map fun (_, h, e) => s.record h [] e.toList
  | .next retirement compare =>
    (s.heap.next retirement compare).map fun (_, h, e) => s.record h [] e.toList
  | .recover => some (s.record s.heap.recover.2 [] [])
  | .setFlags flags => some (s.record (s.heap.setFlags flags).2 [] [])

end HeapRun

/-- The comparisons of an operation agree with one function unless they fail. -/
def HeapOp.Honest (c : V → V → Int) : HeapOp V → Prop
  | insert _ _ compare => Stdlib.Honest c compare
  | extract compare => Stdlib.Honest c compare
  | next _ compare => Stdlib.Honest c compare
  | recover => True
  | setFlags _ => True

namespace HeapRun
variable [Inhabited V]

/-- The invariant of a run. -/
structure Kept (q : Bool) (c : V → V → Int) (honest : Prop) (s : HeapRun V) : Prop where
  owned : s.heap.Owned
  unlocked : s.heap.locked = false
  queue : s.heap.queue = q
  account : (s.heap.contents ++ s.removed).Perm s.inserted
  healthy : s.everCorrupted = false → s.heap.corrupted = false
  ordered : honest → s.everCorrupted = false → HeapOrdered (s.heap.AtLeast c) s.heap.order

theorem Kept.new (q : Bool) (c : V → V → Int) (honest : Prop) :
    (HeapRun.new q : HeapRun V).Kept q c honest where
  owned := ⟨rfl, List.nodup_nil, fun s => by simp [HeapRun.new, Heap.new, Heap.entryOf],
    List.nodup_nil, fun s => by simp [HeapRun.new, Heap.new]⟩
  unlocked := rfl
  queue := rfl
  account := List.Perm.refl _
  healthy _ := rfl
  ordered _ _ i a b _ ha _ := by simp [HeapRun.new, Heap.new] at ha

/-- A call that only touches the flags. -/
theorem Kept.same {s : HeapRun V} (hs : s.Kept q c honest) {h : Heap V}
    (hlen : h.len = s.heap.len) (horder : h.order = s.heap.order)
    (hentries : h.entries = s.heap.entries) (hfree : h.free = s.heap.free)
    (hqueue : h.queue = s.heap.queue) (hlocked : h.locked = false) :
    (s.record h [] []).Kept q c honest := by
  obtain ⟨entries, free, order, len, flags, hq, locked, corrupted⟩ := h
  simp only at hlen horder hentries hfree hqueue hlocked
  subst hlen horder hentries hfree hqueue hlocked
  have hfalse : (s.everCorrupted || corrupted) = false → s.everCorrupted = false ∧
      corrupted = false := fun hf => by simpa using hf
  refine ⟨⟨hs.owned.length, hs.owned.nodup, hs.owned.live, hs.owned.freeNodup, hs.owned.dead⟩, rfl,
    hs.queue, ?_, fun hf => (hfalse hf).2, fun hh hf => hs.ordered hh (hfalse hf).1⟩
  simp only [record, List.append_nil]
  exact hs.account

theorem Kept.changed {s : HeapRun V} (hs : s.Kept q c honest) {compare : Comparator V}
    (hc : TotalPreorder c) (hhonest : honest → Honest c compare) {h : Heap V}
    (hch : Heap.Changed compare s.heap h added gone) :
    (s.record h added gone).Kept q c honest where
  owned := hch.owned
  unlocked := hch.unlocked
  queue := hch.queue.trans hs.queue
  account := by
    have h₁ : (h.contents ++ (s.removed ++ gone)).Perm (h.contents ++ gone ++ s.removed) := by
      rw [List.append_assoc]
      exact List.perm_append_comm.append_left _
    have h₂ : (s.heap.contents ++ added ++ s.removed).Perm
        (s.heap.contents ++ s.removed ++ added) := by
      rw [List.append_assoc, List.append_assoc]
      exact List.perm_append_comm.append_left _
    exact ((h₁.trans (hch.contents.append_right _)).trans h₂).trans (hs.account.append_right _)
  healthy hf := (Bool.or_eq_false_iff.1 hf).2
  ordered hh hf := hch.ordered c hc (hhonest hh) (Bool.or_eq_false_iff.1 hf).2
    (hs.ordered hh (Bool.or_eq_false_iff.1 hf).1)

theorem remove_kept {s : HeapRun V} (hs : s.Kept q c honest) {compare : Comparator V}
    (hc : TotalPreorder c) (hhonest : honest → Honest c compare) (take : Bool)
    (retirement : Ending) :
    ∃ reply h e, s.heap.remove take retirement compare = some (reply, h, e) ∧
      (s.record h [] e.toList).Kept q c honest := by
  by_cases hcor : s.heap.corrupted = true
  · refine ⟨.exception Heap.corruptedMessage, s.heap, none, ?_,
      hs.same rfl rfl rfl rfl rfl hs.unlocked⟩
    simp [Heap.remove, Heap.begin_eq hs.unlocked, hcor]
  · have hcor : s.heap.corrupted = false := by simpa using hcor
    by_cases hlen : s.heap.len = 0
    · refine ⟨if take then .exception "Can't extract from an empty heap" else .null,
        { s.heap with locked := true }.finish .done, none, ?_, hs.same rfl rfl rfl rfl rfl rfl⟩
      rw [Heap.remove, Heap.begin_eq hs.unlocked, if_neg (by simp [hcor])]
      simp only [hlen, if_true]
    · obtain ⟨reply, h, root, e, heq, hch, -⟩ :=
        Heap.remove_spec hs.owned hs.unlocked hcor hlen take retirement
      exact ⟨reply, h, some e, heq, hs.changed hc hhonest hch⟩

theorem step_kept {s : HeapRun V} (hs : s.Kept q c honest) (hc : TotalPreorder c) (op : HeapOp V)
    (hop : honest → op.Honest c) : ∃ t, s.step op = some t ∧ t.Kept q c honest := by
  cases op with
  | insert value priority compare =>
    by_cases hcor : s.heap.corrupted = true
    · refine ⟨s.record s.heap [] [], ?_, hs.same rfl rfl rfl rfl rfl hs.unlocked⟩
      simp [step, Heap.insert, Heap.begin_eq hs.unlocked, hcor]
    · have hlock : s.heap.begin = .ok { s.heap with locked := true } := by
        rw [Heap.begin_eq hs.unlocked, if_neg hcor]
      have hown : Heap.Owned { s.heap with locked := true } :=
        ⟨hs.owned.length, hs.owned.nodup, hs.owned.live, hs.owned.freeNodup, hs.owned.dead⟩
      obtain ⟨ending, h, heq, hch⟩ := @Heap.insertEntry_spec V _ _ compare hown
        ⟨value, if s.heap.queue then priority else default⟩
      refine ⟨s.record h [⟨value, if s.heap.queue then priority else default⟩] [], ?_,
        hs.changed hc hop ⟨hch.owned, hch.unlocked, hch.queue, hch.contents, hch.ordered⟩⟩
      simp only [step, Heap.insert, hlock, heq]
      cases ending <;> rfl
  | extract compare =>
    obtain ⟨reply, h, e, heq, hkept⟩ := remove_kept hs hc hop true .done
    exact ⟨_, by simp [step, Heap.extract, heq], hkept⟩
  | next retirement compare =>
    obtain ⟨reply, h, e, heq, hkept⟩ := remove_kept hs hc hop false retirement
    exact ⟨_, by simp [step, Heap.next, heq], hkept⟩
  | recover => exact ⟨_, rfl, hs.same rfl rfl rfl rfl rfl hs.unlocked⟩
  | setFlags flags =>
    refine ⟨_, rfl, ?_⟩
    by_cases hz : (flags % 4).toNat = 0
    · simp only [Heap.setFlags, hz, if_true]
      exact hs.same rfl rfl rfl rfl rfl hs.unlocked
    · simp only [Heap.setFlags, hz, if_false]
      exact hs.same rfl rfl rfl rfl rfl hs.unlocked

theorem Kept.getElem?_contents {s : HeapRun V} {i : Nat} (hs : s.Kept q c honest)
    (h : s.heap.contents[i]? = some e) :
    ∃ slot, s.heap.order[i]? = some slot ∧ s.heap.entryOf slot = some e := by
  rw [hs.owned.contents_eq, Heap.getElem?_filterMap fun slot hslot => (hs.owned.live slot).1 hslot] at h
  exact Option.bind_eq_some_iff.1 h

/-- Entries above each other in the tree are in order. -/
theorem Kept.parent_ge {s : HeapRun V} {i : Nat} (hs : s.Kept q c honest) (hh : honest)
    (hnever : s.everCorrupted = false) (hi : 0 < i) (ha : s.heap.contents[(i - 1) / 2]? = some a)
    (hb : s.heap.contents[i]? = some b) : 0 ≤ c (Heap.key q a) (Heap.key q b) := by
  obtain ⟨x, hx, hxa⟩ := hs.getElem?_contents ha
  obtain ⟨y, hy, hyb⟩ := hs.getElem?_contents hb
  have := hs.ordered hh hnever i x y hi hx hy
  simpa only [Heap.AtLeast, Heap.keyAt, hxa, hyb, hs.queue] using this

theorem Kept.root_ge {s : HeapRun V} (hs : s.Kept q c honest) (hc : TotalPreorder c) (hh : honest)
    (hnever : s.everCorrupted = false) (hroot : s.heap.order[0]? = some root)
    (he : s.heap.entryOf root = some e) (hmem : e' ∈ s.heap.contents) :
    0 ≤ c (Heap.key q e) (Heap.key q e') := by
  obtain ⟨i, hi⟩ := List.mem_iff_getElem?.1 hmem
  obtain ⟨slot, hslot, he'⟩ := hs.getElem?_contents hi
  have := (hs.ordered hh hnever).root (Heap.AtLeast.refl hc) (Heap.AtLeast.trans hc) hroot hslot
  simpa only [Heap.AtLeast, Heap.keyAt, he, he', hs.queue] using this

/-- Whatever the comparisons answer, every slot of the arena is owned once and every entry is
in the heap or was taken out; while they answer consistently the heap is ordered. -/
theorem run_heap_owned_and_ordered (q : Bool) (ops : List (HeapOp V)) :
    ∃ s : HeapRun V, run step (HeapRun.new q) ops = some s ∧
      (s.heap.order.take s.heap.len ++ s.heap.free).Perm (List.range s.heap.entries.length) ∧
      (∀ slot, slot ∈ s.heap.order.take s.heap.len ↔ (s.heap.entryOf slot).isSome) ∧
      (s.heap.contents ++ s.removed).Perm s.inserted ∧
      ∀ c, TotalPreorder c → (∀ op ∈ ops, op.Honest c) → s.everCorrupted = false →
        (∀ i a b, 0 < i → s.heap.contents[(i - 1) / 2]? = some a → s.heap.contents[i]? = some b →
          0 ≤ c (Heap.key q a) (Heap.key q b)) ∧
        ∀ compare, s.heap.contents ≠ [] → ∃ reply h e,
          s.heap.extract compare = some (reply, h, some e) ∧
            (reply = .failed ∨ reply = .value (s.heap.project e)) ∧
            e ∈ s.heap.contents ∧
            ∀ e' ∈ s.heap.contents, 0 ≤ c (Heap.key q e) (Heap.key q e') := by
  have hkept : ∀ c, TotalPreorder c → ∃ s : HeapRun V, run step (HeapRun.new q) ops = some s ∧
      s.Kept q c (∀ op ∈ ops, op.Honest c) := fun c hc =>
    run_exists ops (fun s op hop hs => step_kept hs hc op fun hall => hall op hop)
      (Kept.new q c _)
  obtain ⟨s, hrun, hs⟩ := hkept (fun _ _ => 0) ⟨fun _ _ => by simp, fun _ _ _ _ _ => Int.le_refl _⟩
  have htake : s.heap.order.take s.heap.len = s.heap.order := by
    rw [← hs.owned.length, List.take_length]
  refine ⟨s, hrun, ?_, ?_, hs.account, fun c hc hhonest hnever => ?_⟩
  · rw [htake]
    exact hs.owned.partition
  · rw [htake]
    exact hs.owned.live
  · obtain ⟨s', hrun', hs⟩ := hkept c hc
    cases hrun.symm.trans hrun'
    refine ⟨fun i a b hi ha hb => hs.parent_ge hhonest hnever hi ha hb, fun compare hne => ?_⟩
    have hlen : s.heap.len ≠ 0 := fun hz => hne (by simp [Heap.contents, hz])
    obtain ⟨reply, h, root, e, heq, -, hroot, he, hreply⟩ := @Heap.remove_spec V _ _ compare
      hs.owned hs.unlocked (hs.healthy hnever) hlen true .done
    refine ⟨reply, h, e, heq, hreply rfl, ?_, fun e' he' =>
      hs.root_ge hc hhonest hnever hroot he he'⟩
    rw [hs.owned.contents_eq]
    exact List.mem_filterMap.2 ⟨root, List.mem_of_getElem? hroot, he⟩

end HeapRun

end Rphp.Stdlib
