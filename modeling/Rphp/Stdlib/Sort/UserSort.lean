import Rphp.Stdlib.Sort.StableOrder
import Rphp.Vm.ScalarLongPlan

namespace Rphp.Stdlib.Sort
open Rphp.Lib Rphp.Vm
set_option autoImplicit true

/-! Sorting with a callback of the script: the entries move while it is called. -/

section Comparisons

/-- What a callback returns, as far as the sort looks at it. -/
inductive CallbackResult
  | true
  | false
  | other (long : Int)
  deriving DecidableEq, Repr

def CallbackResult.toLongVal : CallbackResult → Int
  | .true => 1
  | .false => 0
  | .other long => long

/-- Nothing is returned where the script has an exception to handle. -/
abbrev Callback (α ε σ : Type) := α → α → EStateM ε σ (Option CallbackResult)

/-- The state of a sort: whether it has warned of a boolean result, and the script. -/
structure Script (σ : Type) where
  warnedBoolReturn : Bool
  world : σ

def inWorld (m : EStateM ε σ α) : EStateM ε (Script σ) α := fun s =>
  match m s.world with
  | .ok a w => .ok a { s with world := w }
  | .error e w => .error e { s with world := w }

/-- The warning may raise an exception in turn. -/
def warnBoolReturn (reportDeprecation : EStateM ε σ Bool) : EStateM ε (Script σ) Bool := do
  if (← get).warnedBoolReturn then return false
  else
    modify fun s => { s with warnedBoolReturn := true }
    inWorld reportDeprecation

def userSortComparison (reportDeprecation : EStateM ε σ Bool) (callback : Callback α ε σ)
    (left right : α) : EStateM ε (Script σ) (Option Ordering) := do
  match ← inWorld (callback left right) with
  | none => return none
  | some .true =>
    if ← warnBoolReturn reportDeprecation then return none else return some .gt
  | some .false =>
    if ← warnBoolReturn reportDeprecation then return none
    else
      match ← inWorld (callback right left) with
      | none => return none
      | some reverse => return some (Ord.compare reverse.toLongVal 0).swap
  | some (.other long) => return some (Ord.compare long 0)

end Comparisons

section Schedules

/-- Why a sort with a callback stops: an error, the wish of the comparison, or a panic. -/
inductive Halt (ε : Type)
  | raised (error : ε)
  | aborted
  | fault
  deriving DecidableEq, Repr

abbrev UserCompare (α ε σ : Type) := α → α → EStateM ε σ (Option Ordering)

abbrev UserSorter (α ε σ : Type) := EStateM (Halt ε) (Table α σ)

def entryAt (entries : List α) (i : Nat) : UserSorter α ε σ α :=
  match entries[i]? with
  | some entry => return entry
  | none => throw .fault

def ask (m : EStateM ε σ (Option Ordering)) : UserSorter α ε σ Ordering := fun t =>
  match m t.world with
  | .ok (some ordering) w => .ok ordering { t with world := w }
  | .ok none w => .error .aborted { t with world := w }
  | .error e w => .error (.raised e) { t with world := w }

def swapEntries (i j : Nat) : UserSorter α ε σ Unit := do
  let t ← get
  let a ← entryAt t.entries i
  let b ← entryAt t.entries j
  set { t with entries := exchange t.entries i j a b }

variable (compare : UserCompare α ε σ)

def compareOrAbort (left right : Nat) : UserSorter α ε σ Ordering := do
  let entries := (← get).entries
  ask (compare (← entryAt entries left) (← entryAt entries right))

/-- The entry at a position goes down to its place among those before it. -/
def sinkEntry : Nat → UserSorter α ε σ Unit
  | 0 => return
  | current + 1 => do
    if (← compareOrAbort compare current (current + 1)) = .gt then
      swapEntries current (current + 1)
      sinkEntry current
    else return

def sortFirstTwo : UserSorter α ε σ Bool := do
  if (← compareOrAbort compare 0 1) = .gt then
    swapEntries 0 1
    return true
  else return false

def sortThird (swapped : Bool) : UserSorter α ε σ Unit := do
  if swapped then
    if (← compareOrAbort compare 2 0) = .lt then
      swapEntries 1 2
      swapEntries 0 1
    else if (← compareOrAbort compare 1 2) = .gt then swapEntries 1 2
    else return
  else if (← compareOrAbort compare 1 2) = .gt then
    swapEntries 1 2
    if (← compareOrAbort compare 0 1) = .gt then swapEntries 0 1 else return
  else return

def sortSmall : UserSorter α ε σ Unit := do
  let length := (← get).entries.length
  if length < 2 then return
  else
    let swapped ← sortFirstTwo compare
    if length = 2 then return
    else
      sortThird compare swapped
      (List.range' 3 (length - 3)).forM (sinkEntry compare)

/-- Larger arrays have their own schedule. -/
def sortLarge : UserSorter α ε σ Unit := do
  let length := (← get).entries.length
  (List.range' 1 (length - 1)).forM (sinkEntry compare)

/-- A sort that the comparison gave up is not complete. -/
def completed (m : UserSorter α ε σ Unit) : EStateM (Stop ε) (Table α σ) Bool := fun t =>
  match m t with
  | .ok _ t => .ok true t
  | .error .aborted t => .ok false t
  | .error (.raised e) t => .error (.raised e) t
  | .error .fault t => .error .fault t

def stableSortSmallOptionalChecked : EStateM (Stop ε) (Table α σ) Bool :=
  completed (sortSmall compare)

def userSortItems : EStateM (Stop ε) (Table α σ) Bool := fun t =>
  if t.entries.length < 6 then stableSortSmallOptionalChecked compare t
  else completed (sortLarge compare) t

/-- The array of the script gets the entries of a complete sort. -/
def usortCanonical : EStateM (Stop ε) (Table α σ) Bool := fun t =>
  match userSortItems compare t with
  | .ok true t' => .ok true t'
  | .ok false t' => .ok false { t with world := t'.world }
  | .error e t' => .error e { t with world := t'.world }

end Schedules

section ScalarSorts

/-- The values that are integers and no references. -/
structure Longs (α : Type) where
  long : I64 → α
  asLong : α → Option I64
  asLong_eq_some : asLong a = some n ↔ a = long n

/-- A callback, what a call gives it besides the two values, and its function. -/
structure ResolvedCallback (α ε σ : Type) where
  prependArgs : List α
  useVars : List α
  hasContext : Bool
  closureStaticVars : Bool
  function : Option ScalarFunction
  call : Callback α ε σ

variable (longs : Longs α)

/-- A callback by its plan; there is no answer where the plan has a side exit. -/
def evaluated (callback : ScalarLongCallback) : UserCompare α ε σ := fun left right w =>
  let comparison := do
    callback.evaluateLongs [← longs.asLong left, ← longs.asLong right]
  .ok (comparison.map fun n => Ord.compare n.val 0) w

def rawCompare (order : ScalarLongSortOrder) (left right : α) : Ordering :=
  order.compare ((longs.asLong left).getD .zero) ((longs.asLong right).getD .zero)

/-- Whether integers have been sorted by the plan of the callback; a side exit is an error. -/
def tryUsortScalarLong (resolved : ResolvedCallback α ε' σ') :
    EStateM (Stop ε) (Table α σ) (Except Unit Bool) := fun t =>
  if resolved.prependArgs ≠ [] ∨ resolved.useVars ≠ [] ∨ resolved.hasContext ∨
      resolved.closureStaticVars then .ok (.ok false) t
  else
    match prepareScalarLongCallback resolved.function 2 with
    | none => .ok (.ok false) t
    | some callback =>
      if t.entries.any fun value => (longs.asLong value).isNone then .ok (.ok false) t
      else
        match callback.exactSortOrder with
        | some order =>
          let sorted := t.entries.mergeSort (mayPrecede (rawCompare longs order))
          .ok (.ok true) { t with entries := sorted }
        | none =>
          match completed (sortLarge (evaluated longs callback)) t with
          | .ok true t => .ok (.ok true) t
          | .ok false t => .ok (.error ⟨⟩) t
          | .error e t => .error e t

/-- The plan has no effects, so that a side exit can start again from the array. -/
def usort (reportDeprecation : EStateM ε σ Bool) (resolved : ResolvedCallback α ε σ) :
    EStateM (Stop ε) (Table α (Script σ)) Bool := fun t =>
  match tryUsortScalarLong longs resolved t with
  | .ok (.ok true) t => .ok true t
  | .ok _ _ => usortCanonical (userSortComparison reportDeprecation resolved.call) t
  | .error e t' => .error e { t with world := t'.world }

end ScalarSorts

/-! The entries that move during a sort mirror an order of positions. -/

section Arranged

variable {entries : List α} {order : List Nat} {i j k x y : Nat}

theorem arranged_getElem? (h : order.Perm (List.range entries.length)) (k : Nat) :
    (arranged entries order)[k]? = order[k]?.bind fun index => entries[index]? := by
  have hbound : ∀ index ∈ order, index < entries.length :=
    fun index hindex => List.mem_range.mp (h.mem_iff.mp hindex)
  clear h
  induction order generalizing k with
  | nil => rfl
  | cons index order ih =>
    have ha := List.getElem?_eq_getElem (hbound index List.mem_cons_self)
    have hrest := fun k => ih k fun other hother => hbound other (List.mem_cons_of_mem _ hother)
    rw [arranged, List.filterMap_cons_some ha]
    cases k with
    | zero =>
      rw [List.getElem?_cons_zero, List.getElem?_cons_zero, Option.bind_some, ha]
    | succ k =>
      rw [List.getElem?_cons_succ, List.getElem?_cons_succ]
      exact hrest k

theorem arranged_at (h : order.Perm (List.range entries.length)) (hk : order[k]? = some x)
    (ha : entries[x]? = some a) : (arranged entries order)[k]? = some a := by
  rw [arranged_getElem? h, hk, Option.bind_some, ha]

theorem arranged_exchange (h : order.Perm (List.range entries.length)) (hi : order[i]? = some x)
    (hj : order[j]? = some y) (ha : entries[x]? = some a) (hb : entries[y]? = some b) :
    arranged entries (exchange order i j x y) = exchange (arranged entries order) i j a b := by
  apply List.ext_getElem?
  intro k
  rw [arranged_getElem? ((exchange_perm hi hj).trans h), getElem?_exchange hi hj,
    getElem?_exchange (arranged_at h hi ha) (arranged_at h hj hb), arranged_getElem? h]
  by_cases hkj : k = j
  · rw [if_pos hkj, if_pos hkj, Option.bind_some, ha]
  · by_cases hki : k = i
    · rw [if_neg hkj, if_neg hkj, if_pos hki, if_pos hki, Option.bind_some, hb]
    · rw [if_neg hkj, if_neg hkj, if_neg hki, if_neg hki]

end Arranged

section Agreements

structure Mirrors (entries : List α) (s : Sorting σ) (t : Table α σ) : Prop where
  perm : s.order.Perm (List.range entries.length)
  entries_eq : t.entries = arranged entries s.order
  world_eq : t.world = s.world

/-- A comparison that gives up raises no error of its own. -/
def checked (compare : UserCompare α ε σ) : Compare α (Option ε) σ := fun a b w =>
  match compare a b w with
  | .ok (some ordering) w => .ok ordering w
  | .ok none w => .error none w
  | .error e w => .error (some e) w

def SameStop : Stop (Option ε) → Halt ε → Prop
  | .raised none, .aborted => True
  | .raised (some e), .raised e' => e = e'
  | _, _ => False

/-- Both end with mirrored states, or stop for the same reason. -/
def Agree (entries : List α) (Q : β → γ → List Nat → Prop) :
    EStateM.Result (Stop (Option ε)) (Sorting σ) β → EStateM.Result (Halt ε) (Table α σ) γ → Prop
  | .ok b s, .ok c t => Mirrors entries s t ∧ Q b c s.order
  | .error e s, .error e' t => SameStop e e' ∧ t.world = s.world
  | _, _ => False

def Mirrored (entries : List α) (P : List Nat → Prop) (m : Sorter (Option ε) σ β)
    (m' : UserSorter α ε σ γ) (Q : β → γ → List Nat → Prop) : Prop :=
  ∀ s t, Mirrors entries s t → P s.order → Agree entries Q (m s) (m' t)

variable {entries : List α} {P : List Nat → Prop} {m : Sorter (Option ε) σ β}
  {m' : UserSorter α ε σ γ} {Q : β → γ → List Nat → Prop}

theorem Mirrored.pure {b : β} {c : γ} (h : ∀ l, P l → Q b c l) :
    Mirrored entries P (pure b : Sorter (Option ε) σ β) (pure c) Q :=
  fun _ _ hmirrors hP => ⟨hmirrors, h _ hP⟩

theorem Mirrored.bind {f : β → Sorter (Option ε) σ δ} {f' : γ → UserSorter α ε σ δ'}
    {R : δ → δ' → List Nat → Prop} (h : Mirrored entries P m m' Q)
    (hf : ∀ b c, Mirrored entries (Q b c) (f b) (f' c) R) :
    Mirrored entries P (m >>= f) (m' >>= f') R := by
  intro s t hmirrors hP
  have hfirst := h s t hmirrors hP
  simp only [Bind.bind, EStateM.bind]
  cases hm : m s with
  | ok b s' =>
    cases hm' : m' t with
    | ok c t' =>
      rw [hm, hm'] at hfirst
      exact hf b c s' t' hfirst.1 hfirst.2
    | error e t' =>
      rw [hm, hm'] at hfirst
      exact hfirst.elim
  | error e s' =>
    cases hm' : m' t with
    | ok c t' =>
      rw [hm, hm'] at hfirst
      exact hfirst.elim
    | error e' t' =>
      rw [hm, hm'] at hfirst
      exact hfirst

theorem Agree.mono {Q' : β → γ → List Nat → Prop}
    {r : EStateM.Result (Stop (Option ε)) (Sorting σ) β}
    {r' : EStateM.Result (Halt ε) (Table α σ) γ} (h : Agree entries Q r r')
    (hQ : ∀ b c l, l.Perm (List.range entries.length) → Q b c l → Q' b c l) :
    Agree entries Q' r r' := by
  cases r with
  | ok b s =>
    cases r' with
    | ok c t => exact ⟨h.1, hQ b c _ h.1.perm h.2⟩
    | error e t => exact h.elim
  | error e s =>
    cases r' with
    | ok c t => exact h.elim
    | error e' t => exact h

theorem Mirrored.mono {Q' : β → γ → List Nat → Prop} (h : Mirrored entries P m m' Q)
    (hP : ∀ l, l.Perm (List.range entries.length) → P' l → P l)
    (hQ : ∀ b c l, l.Perm (List.range entries.length) → Q b c l → Q' b c l) :
    Mirrored entries P' m m' Q' :=
  fun s t hmirrors hP' => (h s t hmirrors (hP _ hmirrors.perm hP')).mono hQ

end Agreements

section Steps

variable {entries : List α} {compare : UserCompare α ε σ} {P : List Nat → Prop}
  {i j x y left right : Nat} {l m : List Nat}

theorem isAfter_apply {compare : Compare α ε σ} {s : Sorting σ} (hleft : s.order[left]? = some x)
    (hright : s.order[right]? = some y) (ha : entries[x]? = some a) (hb : entries[y]? = some b) :
    isAfter entries compare left right s = (lift (compare a b) >>= fun ordering =>
      return (if ordering = .eq then Ord.compare x y else ordering).isGT : Sorter ε σ Bool) s := by
  simp only [isAfter, stableObservedCompare, bind_assoc, pure_bind, get_bind_apply,
    fetch_bind hleft, fetch_bind hright, fetch_bind ha, fetch_bind hb]

theorem entryAt_bind {f : α → UserSorter α ε σ β} {l : List α} (h : l[i]? = some a)
    (t : Table α σ) : (entryAt l i >>= f) t = f a t := by
  rw [entryAt, h]
  rfl

theorem compareOrAbort_apply {t : Table α σ} (ha : t.entries[left]? = some a)
    (hb : t.entries[right]? = some b) :
    compareOrAbort compare left right t = ask (compare a b) t := by
  simp only [compareOrAbort, get_bind_apply, entryAt_bind ha, entryAt_bind hb]

theorem swap_apply {s : Sorting σ} (hi : s.order[i]? = some x) (hj : s.order[j]? = some y) :
    (swap i j : Sorter ε σ Unit) s = .ok ⟨⟩ { s with order := exchange s.order i j x y } := by
  simp only [swap, get_bind_apply, fetch_bind hi, fetch_bind hj]
  rfl

theorem swapEntries_apply {t : Table α σ} (ha : t.entries[i]? = some a)
    (hb : t.entries[j]? = some b) :
    (swapEntries i j : UserSorter α ε σ Unit) t =
      .ok ⟨⟩ { t with entries := exchange t.entries i j a b } := by
  simp only [swapEntries, get_bind_apply, entryAt_bind ha, entryAt_bind hb]
  rfl

theorem entry_of_perm {order : List Nat} (h : order.Perm (List.range entries.length))
    (hi : order[i]? = some x) : ∃ a, entries[x]? = some a :=
  ⟨_, List.getElem?_eq_getElem (List.mem_range.mp (h.mem_iff.mp (List.mem_of_getElem? hi)))⟩

theorem Mirrors.at (h : Mirrors entries s t) (hi : s.order[i]? = some x)
    (ha : entries[x]? = some a) : t.entries[i]? = some a := by
  rw [h.entries_eq]
  exact arranged_at h.perm hi ha

theorem Mirrors.with_world {s : Sorting σ} {t : Table α σ} (h : Mirrors entries s t) (w : σ) :
    Mirrors entries { s with world := w } { t with world := w } :=
  ⟨h.perm, h.entries_eq, rfl⟩

theorem Mirrors.exchange (h : Mirrors entries s t) (hi : s.order[i]? = some x)
    (hj : s.order[j]? = some y) (ha : entries[x]? = some a) (hb : entries[y]? = some b) :
    Mirrors entries { s with order := Lib.exchange s.order i j x y }
      { t with entries := Lib.exchange t.entries i j a b } where
  perm := (exchange_perm hi hj).trans h.perm
  entries_eq := by
    rw [arranged_exchange h.perm hi hj ha hb, h.entries_eq]
  world_eq := h.world_eq

theorem bind_congr_at {m₁ m₂ : EStateM ε σ β} (h : m₁ s = m₂ s) (f : β → EStateM ε σ γ) :
    (m₁ >>= f) s = (m₂ >>= f) s := by
  simp only [Bind.bind, EStateM.bind, h]

theorem bind_apply_ok {x : EStateM ε σ β} (h : x s = .ok b s') (f : β → EStateM ε σ γ) :
    (x >>= f) s = f b s' := by
  simp only [Bind.bind, EStateM.bind, h]

theorem ask_agree {f : Ordering → Sorter (Option ε) σ β} {f' : Ordering → UserSorter α ε σ γ}
    {Q : β → γ → List Nat → Prop} {s : Sorting σ} {t : Table α σ} (hworld : t.world = s.world)
    (hf : ∀ ordering w, Agree entries Q (f ordering { s with world := w })
      (f' ordering { t with world := w })) :
    Agree entries Q ((lift (checked compare a b) >>= f) s) ((ask (compare a b) >>= f') t) := by
  simp only [Bind.bind, EStateM.bind, lift, ask, checked, hworld]
  cases compare a b s.world with
  | error e w => exact ⟨rfl, rfl⟩
  | ok answer w =>
    cases answer with
    | none => exact ⟨trivial, rfl⟩
    | some ordering => exact hf ordering w

/-- The positions break a tie in favour of the first of the two. -/
theorem isAfter_mirrors (hP : ∀ l, l.Perm (List.range entries.length) → P l →
      Below (· < ·) l left right) :
    Mirrored entries P (isAfter entries (checked compare) left right)
      (compareOrAbort compare left right)
      fun after ordering l => P l ∧ after = decide (ordering = .gt) := by
  intro s t hmirrors hPs
  obtain ⟨x, y, hx, hy, hlt⟩ := hP _ hmirrors.perm hPs
  obtain ⟨a, ha⟩ := entry_of_perm hmirrors.perm hx
  obtain ⟨b, hb⟩ := entry_of_perm hmirrors.perm hy
  rw [isAfter_apply hx hy ha hb, compareOrAbort_apply (hmirrors.at hx ha) (hmirrors.at hy hb),
    ← bind_pure (ask (compare a b))]
  apply ask_agree hmirrors.world_eq
  intro ordering w
  refine ⟨hmirrors.with_world w, hPs, ?_⟩
  cases ordering with
  | lt => rfl
  | eq =>
    rw [if_pos rfl, Nat.compare_eq_lt.mpr hlt]
    rfl
  | gt => rfl

/-- Both sorts take the same branch. -/
theorem branch_mirrors {f g : Sorter (Option ε) σ β} {f' g' : UserSorter α ε σ γ}
    {Q : β → γ → List Nat → Prop}
    (hP : ∀ l, l.Perm (List.range entries.length) → P l → Below (· < ·) l left right)
    (hafter : Mirrored entries P f f' Q) (hbefore : Mirrored entries P g g' Q) :
    Mirrored entries P
      (isAfter entries (checked compare) left right >>= fun after => if after then f else g)
      (compareOrAbort compare left right >>= fun ordering => if ordering = .gt then f' else g')
      Q := by
  apply (isAfter_mirrors hP).bind
  intro after ordering s t hmirrors hPs
  obtain ⟨hPs, rfl⟩ := hPs
  by_cases hgt : ordering = .gt
  · rw [if_pos hgt, decide_eq_true hgt]
    exact hafter s t hmirrors hPs
  · rw [if_neg hgt, decide_eq_false hgt]
    exact hbefore s t hmirrors hPs

theorem swap_mirrors (hi : i < entries.length) (hj : j < entries.length) :
    Mirrored entries P (swap i j) (swapEntries i j : UserSorter α ε σ Unit)
      fun _ _ m => ∃ l, P l ∧ Swapped i j l m := by
  intro s t hmirrors hPs
  obtain ⟨x, hx, -⟩ := order_getElem? hmirrors.perm hi
  obtain ⟨y, hy, -⟩ := order_getElem? hmirrors.perm hj
  obtain ⟨a, ha⟩ := entry_of_perm hmirrors.perm hx
  obtain ⟨b, hb⟩ := entry_of_perm hmirrors.perm hy
  rw [swap_apply hx hy, swapEntries_apply (hmirrors.at hx ha) (hmirrors.at hy hb)]
  refine ⟨hmirrors.exchange hx hy ha hb, s.order, hPs, ?_⟩
  intro k
  rw [getElem?_exchange hx hy, hx, hy]

/-- The entry at the cursor comes from behind those before it. -/
def Peak (cursor : Nat) (l : List Nat) : Prop := ∀ k < cursor, Below (· < ·) l k cursor

theorem Peak.swapped (h : Peak (cursor + 1) l) (hswapped : Swapped cursor (cursor + 1) l m) :
    Peak cursor m := by
  intro k hk
  exact (h k (Nat.lt_succ_of_lt hk)).congr (hswapped.other (by omega) (by omega))
    (hswapped.left (Nat.ne_of_lt (Nat.lt_succ_self _)))

theorem sink_mirrors (cursor : Nat) (hcursor : cursor < entries.length) :
    Mirrored entries (Peak cursor)
      (sink entries (checked compare) (List.range' 0 entries.length) cursor)
      (sinkEntry compare cursor) fun _ _ _ => True := by
  induction cursor with
  | zero => exact Mirrored.pure fun _ _ => trivial
  | succ cursor ih =>
    have hlt : cursor < entries.length := Nat.lt_of_succ_lt hcursor
    have hat : ∀ k < entries.length, (List.range' 0 entries.length)[k]? = some k := by
      intro k hk
      rw [List.getElem?_range' hk, Nat.one_mul, Nat.zero_add]
    intro s t hmirrors hpeak
    rw [sink, sinkEntry, fetch_bind (hat cursor hlt), fetch_bind (hat (cursor + 1) hcursor)]
    refine branch_mirrors (fun l _ hl => hl cursor (Nat.lt_succ_self _)) ?_
      (Mirrored.pure fun _ _ => trivial) s t hmirrors hpeak
    apply (swap_mirrors hlt hcursor).bind
    intro _ _
    apply (ih hlt).mono
    · rintro m - ⟨l, hl, hswapped⟩
      exact hl.swapped hswapped
    · intro _ _ _ _ _
      trivial

end Steps

end Rphp.Stdlib.Sort
