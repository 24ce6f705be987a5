import Rphp.Lib.Rearrange
import Rphp.Lib.Outcome

namespace Rphp.Stdlib.Sort
open Rphp.Lib
set_option autoImplicit true

/-! The comparison schedule of the sort functions: quicksort over the positions of the entries,
with short insertion sorts at its ends. -/

section States

/-- A comparison raises an error, or the schedule panics. -/
inductive Stop (ε : Type)
  | raised (error : ε)
  | fault
  deriving DecidableEq, Repr

/-- The order found so far, and the world that the comparisons act on. -/
structure Sorting (σ : Type) where
  order : List Nat
  world : σ

abbrev Sorter (ε σ : Type) := EStateM (Stop ε) (Sorting σ)

/-- A comparison of two entries with any outcome. -/
abbrev Compare (α ε σ : Type) := α → α → EStateM ε σ Ordering

def fault : Sorter ε σ α := throw .fault

def fetch (l : List α) (i : Nat) : Sorter ε σ α :=
  match l[i]? with
  | some a => return a
  | none => fault

def lift (m : EStateM ε σ α) : Sorter ε σ α := fun s =>
  match m s.world with
  | .ok a w => .ok a { s with world := w }
  | .error e w => .error (.raised e) { s with world := w }

def swap (i j : Nat) : Sorter ε σ Unit := do
  let s ← get
  let a ← fetch s.order i
  let b ← fetch s.order j
  set { s with order := exchange s.order i j a b }

def placeObservedEntry (destination source : Nat) : Sorter ε σ Unit := do
  let s ← get
  if destination ≤ source then
    let a ← fetch s.order source
    set { s with order := rotateRight s.order destination source a }
  else fault

end States

section Schedule

variable (entries : List α) (compare : Compare α ε σ)

/-- Equal entries keep the order that they had. -/
def stableObservedCompare (left right : Nat) : Sorter ε σ Ordering := do
  let order := (← get).order
  let leftIndex ← fetch order left
  let rightIndex ← fetch order right
  let ordering ← lift (compare (← fetch entries leftIndex) (← fetch entries rightIndex))
  return if ordering = .eq then Ord.compare leftIndex rightIndex else ordering

def isAfter (left right : Nat) : Sorter ε σ Bool := do
  return (← stableObservedCompare entries compare left right).isGT

/-- The entry at a position of the list goes down to its place among those before it. -/
def sink (positions : List Nat) : Nat → Sorter ε σ Unit
  | 0 => return
  | cursor + 1 => do
    let left ← fetch positions cursor
    let right ← fetch positions (cursor + 1)
    if ← isAfter entries compare left right then
      swap left right
      sink positions cursor
    else return

def sortPair (left right : Nat) : Sorter ε σ Unit := do
  if ← isAfter entries compare left right then swap left right else return

/-- The second comparison depends on the first. -/
def sortTriple (first second third : Nat) : Sorter ε σ Unit := do
  if ← isAfter entries compare first second then
    if ← isAfter entries compare third second then
      swap first second
      sortPair entries compare second third
    else swap first third
  else
    if ← isAfter entries compare second third then
      swap second third
      sortPair entries compare first second
    else return

/-- The first positions of the list, of which there are five at most. -/
def observedSmallPrefix (positions : List Nat) : Nat → Sorter ε σ Unit
  | 0 | 1 => return
  | 2 => do sortPair entries compare (← fetch positions 0) (← fetch positions 1)
  | 3 => do
    sortTriple entries compare (← fetch positions 0) (← fetch positions 1) (← fetch positions 2)
  | n + 4 =>
    if n + 4 ≤ 5 then do
      observedSmallPrefix positions (n + 3)
      sink entries compare positions (n + 3)
    else fault

def observedSmallSortSchedule (positions : List Nat) : Sorter ε σ Unit :=
  observedSmallPrefix entries compare positions positions.length

/-- The place of the entry at `source` among the sorted ones from `start` to the destination. -/
def slide (start source : Nat) : Nat → Sorter ε σ Nat
  | 0 => if start = 0 then return 0 else fault
  | destination + 1 => do
    if destination + 1 = start then return destination + 1
    else if ← isAfter entries compare destination source then slide start source destination
    else return destination + 1

/-- The same in steps of two. -/
def leap (start source : Nat) : Nat → Sorter ε σ Nat
  | 0 | 1 => fault
  | destination + 2 => do
    if ← isAfter entries compare destination source then
      if destination = start then return destination
      else if destination = start + 1 then
        if ← isAfter entries compare source start then return destination else return start
      else leap start source destination
    else if ← isAfter entries compare (destination + 1) source then return destination + 1
    else return destination + 2

def insertNear (start source : Nat) : Sorter ε σ Unit := do
  let destination := source - 1
  if ← isAfter entries compare destination source then
    let destination ← slide entries compare start source destination
    placeObservedEntry destination source
  else return

def insertFar (start source : Nat) : Sorter ε σ Unit := do
  let destination := source - 1
  if ← isAfter entries compare destination source then
    let destination ← leap entries compare start source destination
    placeObservedEntry destination source
  else return

def observedInsertionSchedule (start length : Nat) : Sorter ε σ Unit := do
  if length ≤ 1 then return
  else if length ≤ 5 then
    observedSmallSortSchedule entries compare (List.range' start length)
  else
    (List.range' (start + 1) 5).forM (insertNear entries compare start)
    (List.range' (start + 6) (length - 6)).forM (insertFar entries compare start)

/-- From `low` on, the first entry that is not before the pivot. -/
def scanLow (pivot high : Nat) : Nat → Nat → Sorter ε σ Nat
  | 0, _ => fault
  | fuel + 1, low => do
    if ← isAfter entries compare pivot low then
      if low + 1 = high then return low + 1 else scanLow pivot high fuel (low + 1)
    else return low

def decrement : Nat → Sorter ε σ Nat
  | 0 => fault
  | n + 1 => return n

/-- From `high` down, the first entry that is not behind the pivot. -/
def scanHigh (pivot low : Nat) : Nat → Nat → Sorter ε σ Nat
  | 0, _ => fault
  | fuel + 1, high => do
    if ← isAfter entries compare high pivot then
      let high ← decrement high
      if high = low then return high else scanHigh pivot low fuel high
    else return high

/-- The end of the entries before the pivot. -/
def partition (pivot : Nat) : Nat → Nat → Nat → Sorter ε σ Nat
  | 0, _, _ => fault
  | fuel + 1, low, high => do
    let low ← scanLow entries compare pivot high (high - low) low
    if low = high then return low
    else
      let high ← decrement high
      if high = low then return low
      else
        let high ← scanHigh entries compare pivot low (high - low) high
        if high = low then return low
        else
          swap low high
          if low + 1 = high then return low + 1 else partition pivot fuel (low + 1) high

def samplePositions (start length : Nat) : List Nat :=
  let offset := length / 2
  let delta := offset / 2
  if 1024 ≤ length then
    [start, start + delta, start + offset, start + offset + delta, start + length - 1]
  else [start, start + offset, start + length - 1]

/-- A long segment around the pivot, at the position that is returned. -/
def split (start length : Nat) : Sorter ε σ Nat := do
  observedSmallSortSchedule entries compare (samplePositions start length)
  swap (start + 1) (start + length / 2)
  let low ← partition entries compare (start + 1) length (start + 2) (start + length - 1)
  let pivot ← decrement low
  swap (start + 1) pivot
  return pivot

/-- The shorter part is next, and the other one stays on the stack. -/
def partsAround (start length pivot : Nat) : List (Nat × Nat) :=
  let left := (start, pivot - start)
  let right := (pivot + 1, start + length - (pivot + 1))
  if left.2 < right.2 then [left, right] else if left.2 ≠ 0 then [right, left] else [right]

def phpObservedSortSchedule : Nat → List (Nat × Nat) → Sorter ε σ Unit
  | _, [] => return
  | 0, _ :: _ => fault
  | fuel + 1, (start, length) :: pending => do
    if 16 < length then
      let pivot ← split entries compare start length
      phpObservedSortSchedule fuel (partsAround start length pivot ++ pending)
    else
      observedInsertionSchedule entries compare start length
      phpObservedSortSchedule fuel pending

/-- The entries in the order that was found; none of them is taken twice. -/
def takeEntries : List (Option α) → List Nat → Sorter ε σ (List α)
  | _, [] => return []
  | slots, index :: order => do
    match ← fetch slots index with
    | none => fault
    | some entry => return entry :: (← takeEntries (slots.set index none) order)

end Schedule

/-- The entries, which a failed comparison leaves as they were, and the world. -/
structure Table (α σ : Type) where
  entries : List α
  world : σ

def stableSortChecked (compare : Compare α ε σ) : EStateM (Stop ε) (Table α σ) Unit := fun s =>
  let length := s.entries.length
  if length < 2 then .ok ⟨⟩ s
  else
    let sorted : Sorter ε σ (List α) := do
      phpObservedSortSchedule s.entries compare (2 * length + 1) [(0, length)]
      takeEntries (s.entries.map some) (← get).order
    match sorted ⟨List.range length, s.world⟩ with
    | .ok entries t => .ok ⟨⟩ ⟨entries, t.world⟩
    | .error e t => .error e { s with world := t.world }

/-! Rules for the parts of the schedule: what they do to the order, and what they learn of it. -/

section Rules

/-- The schedule stops at an error of a comparison only. -/
def Raised (e : Stop ε) (_ : Sorting σ) : Prop := ∃ error, e = .raised error

/-- From an order with `P`, the positions in `S` are rearranged to an order with `Q`. -/
def Sorts (n : Nat) (S : Nat → Prop) (P : List Nat → Prop) (m : Sorter ε σ β)
    (Q : β → List Nat → Prop) : Prop :=
  ∀ s, s.order.Perm (List.range n) → P s.order →
    Post (fun b t => Rearranged S s.order t.order ∧ Q b t.order) Raised (m s)

/-- The order stays as it is. -/
def Asks (n : Nat) (P : List Nat → Prop) (m : Sorter ε σ β) (Q : β → List Nat → Prop) : Prop :=
  ∀ s, s.order.Perm (List.range n) → P s.order →
    Post (fun b t => t.order = s.order ∧ Q b s.order) Raised (m s)

variable {n : Nat} {S : Nat → Prop} {P : List Nat → Prop} {m : Sorter ε σ β}

theorem Sorts.pure {Q : β → List Nat → Prop} (h : ∀ l, P l → Q b l) :
    Sorts n S P (pure b : Sorter ε σ β) Q :=
  fun s _ hP => ⟨.refl S s.order, h _ hP⟩

theorem Sorts.bind {f : β → Sorter ε σ γ} (h : Sorts n S P m R)
    (hf : ∀ b, Sorts n S (R b) (f b) Q) : Sorts n S P (m >>= f) Q := by
  intro s hs hP
  apply (h s hs hP).bind
  rintro b t - ⟨hmoved, hR⟩
  apply (hf b t (hmoved.perm.trans hs) hR).mono
  · rintro c u ⟨hmoved', hQ⟩
    exact ⟨hmoved.trans hmoved', hQ⟩
  · intro e u he
    exact he

theorem Sorts.mono {Q' : β → List Nat → Prop} (h : Sorts n S P m Q) (hS : ∀ k, S k → T k)
    (hP : ∀ l, P' l → P l) (hQ : ∀ b l, Q b l → Q' b l) : Sorts n T P' m Q' := by
  intro s hs hP'
  apply (h s hs (hP _ hP')).mono
  · rintro b t ⟨hmoved, hb⟩
    exact ⟨hmoved.mono hS, hQ b _ hb⟩
  · intro e t he
    exact he

/-- A question comes first; what held before it still holds. -/
theorem Sorts.ask {f : β → Sorter ε σ γ} (h : Asks n P m R)
    (hf : ∀ b, Sorts n S (fun l => P l ∧ R b l) (f b) Q) : Sorts n S P (m >>= f) Q := by
  intro s hs hP
  apply (h s hs hP).bind
  rintro b t - ⟨heq, hR⟩
  have hrest := hf b t (heq ▸ hs) (heq ▸ ⟨hP, hR⟩)
  rw [heq] at hrest
  exact hrest

theorem Asks.bind {f : β → Sorter ε σ γ} {Q : γ → List Nat → Prop} (h : Asks n P m R)
    (hf : ∀ b, Asks n (fun l => P l ∧ R b l) (f b) Q) : Asks n P (m >>= f) Q := by
  intro s hs hP
  apply (h s hs hP).bind
  rintro b t - ⟨heq, hR⟩
  have hrest := hf b t (heq ▸ hs) (heq ▸ ⟨hP, hR⟩)
  rw [heq] at hrest
  exact hrest

theorem Asks.pure {Q : β → List Nat → Prop} (h : ∀ l, P l → Q b l) :
    Asks n P (pure b : Sorter ε σ β) Q := fun _ _ hP => ⟨rfl, h _ hP⟩

theorem Asks.mono {Q' : β → List Nat → Prop} (h : Asks n P m Q) (hP : ∀ l, P' l → P l)
    (hQ : ∀ b l, P' l → Q b l → Q' b l) : Asks n P' m Q' := by
  intro s hs hP'
  apply (h s hs (hP _ hP')).mono
  · rintro b t ⟨heq, hb⟩
    exact ⟨heq, hQ b _ hP' hb⟩
  · intro e t he
    exact he

theorem fetch_bind {f : β → Sorter ε σ γ} {l : List β} (h : l[i]? = some b) (s : Sorting σ) :
    (fetch l i >>= f) s = f b s := by
  rw [fetch, h]
  rfl

/-- A place in a list of positions. -/
theorem Sorts.fetch {f : β → Sorter ε σ γ} {l : List β} (h : l[i]? = some b)
    (hf : Sorts n S P (f b) Q) : Sorts n S P (fetch l i >>= f) Q := by
  intro s hs hP
  rw [fetch_bind h]
  exact hf s hs hP

theorem order_length {s : Sorting σ} (hs : s.order.Perm (List.range n)) : s.order.length = n := by
  rw [hs.length_eq, List.length_range]

theorem order_getElem? {s : Sorting σ} (hs : s.order.Perm (List.range n)) (hi : i < n) :
    ∃ a, s.order[i]? = some a ∧ a < n := by
  have hlength := order_length hs
  have hlt : i < s.order.length := hlength.symm ▸ hi
  have hat := List.getElem?_eq_getElem hlt
  exact ⟨_, hat, List.mem_range.mp (hs.mem_iff.mp (List.mem_of_getElem? hat))⟩

/-- The orders before and after an exchange. -/
def Swapped (i j : Nat) (l m : List Nat) : Prop :=
  ∀ k, m[k]? = if k = j then l[i]? else if k = i then l[j]? else l[k]?

theorem Swapped.left (h : Swapped i j l l') (hne : i ≠ j) : l'[i]? = l[j]? := by
  rw [h, if_neg hne, if_pos rfl]

theorem Swapped.right (h : Swapped i j l l') : l'[j]? = l[i]? := by
  rw [h, if_pos rfl]

theorem Swapped.other (h : Swapped i j l l') (hi : k ≠ i) (hj : k ≠ j) : l'[k]? = l[k]? := by
  rw [h, if_neg hj, if_neg hi]

theorem swap_sorts (hi : i < n) (hj : j < n) (hSi : S i) (hSj : S j) :
    Sorts n S P (swap i j : Sorter ε σ Unit) fun _ m => ∃ l, P l ∧ Swapped i j l m := by
  intro s hs hP
  obtain ⟨a, ha, -⟩ := order_getElem? hs hi
  obtain ⟨b, hb, -⟩ := order_getElem? hs hj
  have hat : (swap i j : Sorter ε σ Unit) s =
      .ok ⟨⟩ { s with order := exchange s.order i j a b } := by
    simp only [swap, get_bind_apply, fetch_bind ha, fetch_bind hb]
    rfl
  rw [hat]
  refine ⟨rearranged_exchange ha hb hSi hSj, s.order, hP, ?_⟩
  intro k
  rw [getElem?_exchange ha hb, ha, hb]

theorem place_sorts (hle : destination ≤ source) (hsource : source < n)
    (hS : ∀ k, destination ≤ k → k ≤ source → S k) :
    Sorts n S P (placeObservedEntry destination source : Sorter ε σ Unit) fun _ m =>
      ∃ l a, P l ∧ l[source]? = some a ∧ m = rotateRight l destination source a := by
  intro s hs hP
  obtain ⟨a, ha, -⟩ := order_getElem? hs hsource
  have hat : (placeObservedEntry destination source : Sorter ε σ Unit) s =
      .ok ⟨⟩ { s with order := rotateRight s.order destination source a } := by
    simp only [placeObservedEntry, get_bind_apply, if_pos hle, fetch_bind ha]
    rfl
  rw [hat]
  exact ⟨(rearranged_rotateRight hle ha).mono fun k hk => hS k hk.1 hk.2, s.order, a, hP, ha, rfl⟩

theorem decrement_asks (h : 0 < k) :
    Asks n P (decrement k : Sorter ε σ Nat) fun k' _ => k' + 1 = k := by
  intro s _ _
  cases k with
  | zero => exact absurd h (Nat.lt_irrefl 0)
  | succ k => exact ⟨rfl, rfl⟩

end Rules

section Comparisons

/-- Where the comparisons are sound, they decide whether one entry may stand before another. -/
structure Oracle (entries : List α) (compare : Compare α ε σ) (sound : Prop)
    (le : Nat → Nat → Prop) : Prop where
  trans : ∀ a b c, le a b → le b c → le a c
  total : ∀ a b, ¬ le a b → le b a
  decides : sound → ∀ i j a b w, entries[i]? = some a → entries[j]? = some b →
    Post (fun ordering _ =>
      (if ordering = .eq then Ord.compare i j else ordering).isGT = true ↔ ¬ le i j)
      (fun _ _ => True) (compare a b w)

variable {entries : List α} {compare : Compare α ε σ} {sound : Prop} {le : Nat → Nat → Prop}
  {P : List Nat → Prop}

/-- Nothing is known of what the comparisons answer. -/
theorem oracle_trivial (entries : List α) (compare : Compare α ε σ) :
    Oracle entries compare False fun _ _ => True where
  trans _ _ _ _ _ := trivial
  total _ _ _ := trivial
  decides hfalse := hfalse.elim

theorem lift_bind_post {m : EStateM ε σ β} {f : β → Sorter ε σ γ} {s : Sorting σ}
    {Q : γ → Sorting σ → Prop} (h : Post R (fun _ _ => True) (m s.world))
    (hf : ∀ b w, R b w → Post Q Raised (f b { s with world := w })) :
    Post Q Raised ((lift m >>= f) s) := by
  simp only [bind, EStateM.bind, lift]
  cases hrun : m s.world with
  | ok b w =>
    rw [hrun] at h
    exact hf b w h
  | error e w => exact ⟨e, rfl⟩

/-- What an answer says about two positions. -/
def Answer (sound : Prop) (le : Nat → Nat → Prop) (left right : Nat) (after : Bool)
    (l : List Nat) : Prop :=
  sound → if after then Below le l right left else Below le l left right

theorem isAfter_asks (h : Oracle entries compare sound le) (hleft : left < entries.length)
    (hright : right < entries.length) :
    Asks entries.length P (isAfter entries compare left right) (Answer sound le left right) := by
  intro s hs _
  obtain ⟨i, hi, hilt⟩ := order_getElem? hs hleft
  obtain ⟨j, hj, hjlt⟩ := order_getElem? hs hright
  have ha := List.getElem?_eq_getElem hilt
  have hb := List.getElem?_eq_getElem hjlt
  have hdecides : Post (fun ordering _ => sound →
      ((if ordering = .eq then Ord.compare i j else ordering).isGT = true ↔ ¬ le i j))
      (fun _ _ => True) (compare entries[i] entries[j] s.world) := by
    by_cases hsound : sound
    · apply (h.decides hsound i j _ _ s.world ha hb).mono
      · intro ordering w hw _
        exact hw
      · intro _ _ _
        trivial
    · cases compare entries[i] entries[j] s.world with
      | ok ordering w =>
        intro hsound'
        exact absurd hsound' hsound
      | error e w => trivial
  simp only [isAfter, stableObservedCompare, bind_assoc, get_bind_apply, fetch_bind hi,
    fetch_bind hj, fetch_bind ha, fetch_bind hb]
  apply lift_bind_post hdecides
  intro ordering w hw
  refine ⟨rfl, ?_⟩
  intro hsound
  by_cases hafter : (if ordering = .eq then Ord.compare i j else ordering).isGT = true
  · rw [if_pos hafter]
    exact ⟨j, i, hj, hi, h.total _ _ ((hw hsound).mp hafter)⟩
  · rw [if_neg hafter]
    have hle : le i j := Classical.not_not.mp fun hle => hafter ((hw hsound).mpr hle)
    exact ⟨i, j, hi, hj, hle⟩

end Comparisons

end Rphp.Stdlib.Sort
