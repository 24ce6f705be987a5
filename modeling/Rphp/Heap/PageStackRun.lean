import Mathlib.Data.List.Count
import Mathlib.Logic.Function.Basic
import Rphp.Heap.PageStack

namespace Rphp.Heap
set_option autoImplicit true

open Rphp.Lib

theorem toNat_successor (head index : Usize) : (PageStack.successor head index).toNat =
    2 ^ 24 * ((head.toNat / 2 ^ 24 + 1) % 2 ^ 40) + index.toNat % 2 ^ 24 := by
  have hhigh : (head &&& ~~~stackIndexMask).toNat = head.toNat / 2 ^ 24 * 2 ^ 24 :=
    toNat_and_not_lowMask head 24
  have hlow : (index &&& stackIndexMask).toNat = index.toNat % 2 ^ 24 :=
    toNat_and_lowMask index 24 (by decide)
  have hversion : stackVersion.toNat = 2 ^ 24 := rfl
  have hlt := head.isLt
  have hsum : (head.toNat / 2 ^ 24 * 2 ^ 24 + 2 ^ 24) % 2 ^ 64 =
      2 ^ 24 * ((head.toNat / 2 ^ 24 + 1) % 2 ^ 40) := by omega
  unfold PageStack.successor
  rw [BitVec.toNat_or, BitVec.toNat_add, hhigh, hlow, hversion, hsum,
    ← Nat.two_pow_add_eq_or_of_lt (Nat.mod_lt _ (by decide))]

/-- The version part of a head. -/
def versionOf (head : Usize) : Nat := head.toNat / 2 ^ 24

theorem versionOf_successor (head index : Usize) :
    versionOf (PageStack.successor head index) = (versionOf head + 1) % 2 ^ 40 := by
  unfold versionOf
  rw [toNat_successor]
  omega

theorem index_successor (head index : Usize) :
    PageStack.successor head index &&& stackIndexMask = index &&& stackIndexMask := by
  apply BitVec.eq_of_toNat_eq
  have h : ∀ x : Usize, (x &&& stackIndexMask).toNat = x.toNat % 2 ^ 24 :=
    fun x => toNat_and_lowMask x 24 (by decide)
  rw [h, h, toNat_successor]
  omega

theorem chain_congr {link link' : Usize → Usize} (contents : List Usize)
    (h : ∀ entry ∈ contents, link' entry = link entry) (hc : Chain r link index contents) :
    Chain r link' index contents := by
  induction contents generalizing index with
  | nil => exact hc
  | cons entry rest ih =>
    obtain ⟨hne, hmask, hentry, hrest⟩ := hc
    refine ⟨hne, hmask, hentry, ?_⟩
    rw [h entry List.mem_cons_self]
    exact ih (fun e he => h e (List.mem_cons_of_mem _ he)) hrest

/-- The first of the entries reachable from an index other than zero. -/
theorem chain_ne_zero (hc : Chain r link index contents) (hne : index ≠ 0) :
    ∃ rest, contents = r.stackEntry index :: rest ∧
      Chain r link (link (r.stackEntry index)) rest := by
  cases contents with
  | nil => exact absurd hc hne
  | cons entry rest =>
    obtain ⟨-, -, rfl, hrest⟩ := hc
    exact ⟨rest, rfl, hrest⟩

theorem chain_masked (hc : Chain r link index contents) : index &&& stackIndexMask = index := by
  cases contents with
  | nil =>
    rw [show index = 0 from hc]
    rfl
  | cons entry rest => exact hc.2.1

/-- Who holds an entry: a caller, a push under way, a stack, or a pop about to return it. -/
inductive Place (τ σ : Type) where
  | owned
  | pushing (thread : τ)
  | stored (stack : σ)
  | taken (thread : τ) (stack : σ)

namespace Shared

/-- A head that a call has read is the present one unless the stack was updated since. -/
def Seen (m : Shared τ σ) (call : Call σ) (head : Usize) (fresh : Prop) : Prop :=
  ∃ u, call.began ≤ u ∧ u ≤ m.updates call.stack ∧ versionOf head = u % 2 ^ 40 ∧
    (u = m.updates call.stack → (m.stackAt call.stack).head = head ∧ fresh)

/-- What is known of a call at each point of it. -/
def CallOk (r : Range) (m : Shared τ σ) (place : Usize → Place τ σ) (t : τ) (call : Call σ) :
    Prop :=
  call.began ≤ m.updates call.stack ∧
  match call.point with
  | .pushCount entry => place entry = .pushing t ∧ r.IsEntry entry
  | .pushLoad entry => place entry = .pushing t ∧ r.IsEntry entry
  | .pushLink entry _ => place entry = .pushing t ∧ r.IsEntry entry
  | .pushSwap entry head =>
    place entry = .pushing t ∧ r.IsEntry entry ∧ m.link entry = head &&& stackIndexMask
  | .popLoad => True
  | .popRead head => m.Seen call head True
  | .popSwap head next => head &&& stackIndexMask ≠ 0 ∧
    m.Seen call head (next = m.link (r.stackEntry (head &&& stackIndexMask)))
  | .popCount entry => place entry = .taken t call.stack

/-- Whether an entry is in a stack or on its way out of it. -/
def Inside (place : Usize → Place τ σ) (s : σ) (entry : Usize) : Prop :=
  place entry = .stored s ∨ ∃ t, place entry = .taken t s

/-- A place that no thread but one has anything to do with. -/
def Place.NotOfOthers (t : τ) (p : Place τ σ) : Prop :=
  ∀ t', t' ≠ t → p ≠ .pushing t' ∧ ∀ s, p ≠ .taken t' s

/-- What one thread's step may change for the others. -/
structure Interferes (t : τ) (m m' : Shared τ σ) (place place' : Usize → Place τ σ) : Prop where
  calls : ∀ t', t' ≠ t → m'.calls t' = m.calls t'
  pushing : ∀ entry t', t' ≠ t → place entry = .pushing t' → place' entry = .pushing t'
  taken : ∀ entry t' s, t' ≠ t → (place' entry = .taken t' s ↔ place entry = .taken t' s)
  links : ∀ entry, place entry ≠ .pushing t → m'.link entry = m.link entry
  heads : ∀ s, m'.updates s = m.updates s ∧ (m'.stackAt s).head = (m.stackAt s).head ∨
    m.updates s < m'.updates s

variable {m m' : Shared τ σ} {contents : σ → List Usize} {place place' : Usize → Place τ σ}

theorem update_pushing {X : Place τ σ} (hold : Place.NotOfOthers t (place entry))
    (hX : Place.NotOfOthers t X) (e : Usize) (t' : τ) (hne : t' ≠ t) :
    (Function.update place entry X e = .pushing t' ↔ place e = .pushing t') ∧
      ∀ s, Function.update place entry X e = .taken t' s ↔ place e = .taken t' s := by
  by_cases he : e = entry
  · subst he
    rw [Function.update_self]
    exact ⟨iff_of_false (hX t' hne).1 (hold t' hne).1,
      fun s => iff_of_false ((hX t' hne).2 s) ((hold t' hne).2 s)⟩
  · rw [Function.update_of_ne he]
    exact ⟨Iff.rfl, fun _ => Iff.rfl⟩

theorem Interferes.updates_le (hi : Interferes t m m' place place') (s : σ) :
    m.updates s ≤ m'.updates s := by
  rcases hi.heads s with ⟨h, -⟩ | h <;> omega

theorem Interferes.seen (hi : Interferes t m m' place place')
    (hs : m.Seen call head fresh) (hf : (m.stackAt call.stack).head = head → fresh → fresh') :
    m'.Seen call head fresh' := by
  obtain ⟨u, hbegan, hle, hversion, hnow⟩ := hs
  have hmono := hi.updates_le call.stack
  refine ⟨u, hbegan, by omega, hversion, ?_⟩
  intro hu
  rcases hi.heads call.stack with ⟨hsame, hhead⟩ | hlt
  · obtain ⟨hpresent, hfresh⟩ := hnow (by omega)
    exact ⟨by rw [hhead, hpresent], hf hpresent hfresh⟩
  · omega

variable [DecidableEq σ]

/-- A history in which the pushes and pops of each entry alternate, a push first. -/
def Alternates (log : List (Event σ)) : Prop :=
  ∀ l, l <+: log → ∀ s entry, l.count (.popped s entry) ≤ l.count (.pushed s entry) ∧
    l.count (.pushed s entry) ≤ l.count (.popped s entry) + 1

/-- The invariant of the stacks, for the entries they hold and the place of every entry. -/
structure InvAt (r : Range) (m : Shared τ σ) (contents : σ → List Usize)
    (place : Usize → Place τ σ) : Prop where
  chain : ∀ s, Chain r m.link ((m.stackAt s).head &&& stackIndexMask) (contents s)
  nodup : ∀ s, (contents s).Nodup
  stored : ∀ s entry, entry ∈ contents s ↔ place entry = .stored s
  owned : ∀ entry, m.owned entry = true → place entry = .owned
  taken : ∀ entry t s, place entry = .taken t s →
    ∃ call, m.calls t = some call ∧ call.stack = s ∧ call.point = .popCount entry
  calls : ∀ t call, m.calls t = some call → m.CallOk r place t call
  version : ∀ s, versionOf (m.stackAt s).head = m.updates s % 2 ^ 40
  pushed : ∀ s entry, Inside place s entry →
    m.log.count (.pushed s entry) = m.log.count (.popped s entry) + 1
  popped : ∀ s entry, ¬ Inside place s entry →
    m.log.count (.pushed s entry) = m.log.count (.popped s entry)
  alternates : Alternates m.log

/-- The calls of the other threads keep what is known of them. -/
theorem InvAt.callOk_of_interferes (h : InvAt r m contents place)
    (hi : Interferes t m m' place place') (hne : t' ≠ t) (hc : m.CallOk r place t' call) :
    m'.CallOk r place' t' call := by
  obtain ⟨hbegan, hpoint⟩ := hc
  refine ⟨Nat.le_trans hbegan (hi.updates_le _), ?_⟩
  cases hp : call.point with
  | pushCount entry =>
    rw [hp] at hpoint
    exact ⟨hi.pushing entry t' hne hpoint.1, hpoint.2⟩
  | pushLoad entry =>
    rw [hp] at hpoint
    exact ⟨hi.pushing entry t' hne hpoint.1, hpoint.2⟩
  | pushLink entry head =>
    rw [hp] at hpoint
    exact ⟨hi.pushing entry t' hne hpoint.1, hpoint.2⟩
  | pushSwap entry head =>
    rw [hp] at hpoint
    obtain ⟨hplace, hentry, hlink⟩ := hpoint
    refine ⟨hi.pushing entry t' hne hplace, hentry, ?_⟩
    rw [hi.links entry ?_, hlink]
    rw [hplace]
    intro heq
    exact hne (Place.pushing.inj heq)
  | popLoad => trivial
  | popRead head =>
    rw [hp] at hpoint
    exact hi.seen hpoint fun _ hf => hf
  | popSwap head next =>
    rw [hp] at hpoint
    refine ⟨hpoint.1, hi.seen hpoint.2 ?_⟩
    intro hpresent hnext
    have hchain := h.chain call.stack
    rw [hpresent] at hchain
    obtain ⟨rest, hcontents, -⟩ := chain_ne_zero hchain hpoint.1
    have hstored : place (r.stackEntry (head &&& stackIndexMask)) = .stored call.stack := by
      rw [← h.stored, hcontents]
      exact List.mem_cons_self
    rw [hnext, hi.links _ (by rw [hstored]; nofun)]
  | popCount entry =>
    rw [hp] at hpoint
    exact (hi.taken entry t' call.stack hne).2 hpoint

/-- A step that changes nothing but the call of one thread and a count. -/
structure Quiet (t : τ) (m m' : Shared τ σ) : Prop where
  link : m'.link = m.link
  heads : ∀ s, (m'.stackAt s).head = (m.stackAt s).head
  owned : m'.owned = m.owned
  updates : m'.updates = m.updates
  log : m'.log = m.log
  calls : ∀ t', t' ≠ t → m'.calls t' = m.calls t'

omit [DecidableEq σ] in
theorem Quiet.interferes (hq : Quiet t m m') (place : Usize → Place τ σ) :
    Interferes t m m' place place :=
  ⟨hq.calls, fun _ _ _ h => h, fun _ _ _ _ => Iff.rfl, fun _ _ => by rw [hq.link],
    fun s => .inl ⟨by rw [hq.updates], hq.heads s⟩⟩

/-- A quiet step of a thread that returns no entry. -/
theorem InvAt.quiet (h : InvAt r m contents place) (hq : Quiet t m m')
    (hcall : ∀ call, m'.calls t = some call → m'.CallOk r place t call)
    (htaken : ∀ entry s, place entry ≠ .taken t s) : InvAt r m' contents place where
  chain s := by
    rw [hq.link, hq.heads]
    exact h.chain s
  nodup := h.nodup
  stored := h.stored
  owned := by
    rw [hq.owned]
    exact h.owned
  taken := by
    intro entry t' s hplace
    have hne : t' ≠ t := by
      intro heq
      exact htaken entry s (heq ▸ hplace)
    rw [hq.calls t' hne]
    exact h.taken entry t' s hplace
  calls := by
    intro t' call hc
    by_cases hne : t' = t
    · rw [hne] at hc ⊢
      exact hcall call hc
    · rw [hq.calls t' hne] at hc
      exact h.callOk_of_interferes (hq.interferes place) hne (h.calls t' call hc)
  version := by
    intro s
    rw [hq.heads, hq.updates]
    exact h.version s
  pushed := by
    rw [hq.log]
    exact h.pushed
  popped := by
    rw [hq.log]
    exact h.popped
  alternates := by
    rw [hq.log]
    exact h.alternates

/-- A call that is not about to return an entry holds none. -/
theorem InvAt.not_taken (h : InvAt r m contents place) (hc : m.calls t = some call)
    (hpoint : ∀ entry, call.point ≠ .popCount entry) (entry : Usize) (s : σ) :
    place entry ≠ .taken t s := by
  intro hplace
  obtain ⟨call', hc', -, hp⟩ := h.taken entry t s hplace
  rw [hc] at hc'
  cases hc'
  exact hpoint entry hp

theorem InvAt.not_taken_of_idle (h : InvAt r m contents place) (hc : m.calls t = none)
    (entry : Usize) (s : σ) : place entry ≠ .taken t s := by
  intro hplace
  obtain ⟨call, hc', -⟩ := h.taken entry t s hplace
  rw [hc] at hc'
  cases hc'

/-- The history after one more event, from the counts that the new places call for. -/
theorem Alternates.append {log : List (Event σ)} (h : Alternates log) (event : Event σ)
    (hpushed : ∀ s entry, Inside place s entry → (log ++ [event]).count (.pushed s entry) =
      (log ++ [event]).count (.popped s entry) + 1)
    (hpopped : ∀ s entry, ¬ Inside place s entry → (log ++ [event]).count (.pushed s entry) =
      (log ++ [event]).count (.popped s entry)) : Alternates (log ++ [event]) := by
  intro l hl
  rcases List.prefix_concat_iff.1 hl with rfl | hl
  · intro s entry
    by_cases hin : Inside place s entry
    · have := hpushed s entry hin
      omega
    · have := hpopped s entry hin
      omega
  · exact h l hl

/-- An event of one entry of one stack, counted. -/
theorem count_concat_pushed (log : List (Event σ)) (s s' : σ) (entry entry' : Usize) :
    (log ++ [Event.pushed s entry]).count (Event.popped s' entry') = log.count (Event.popped s' entry') ∧
    (log ++ [Event.pushed s entry]).count (Event.pushed s' entry') =
      log.count (Event.pushed s' entry') + if s = s' ∧ entry = entry' then 1 else 0 := by
  rw [List.count_append, List.count_append, List.count_singleton, List.count_singleton]
  simp

theorem count_concat_popped (log : List (Event σ)) (s s' : σ) (entry entry' : Usize) :
    (log ++ [Event.popped s entry]).count (Event.pushed s' entry') = log.count (Event.pushed s' entry') ∧
    (log ++ [Event.popped s entry]).count (Event.popped s' entry') =
      log.count (Event.popped s' entry') + if s = s' ∧ entry = entry' then 1 else 0 := by
  rw [List.count_append, List.count_append, List.count_singleton, List.count_singleton]
  simp

/-- The head as it is now has been seen now. -/
theorem InvAt.seen_now (h : InvAt r m contents place) (call : Call σ)
    (hbegan : call.began ≤ m.updates call.stack) :
    m.Seen call (m.stackAt call.stack).head True :=
  ⟨m.updates call.stack, hbegan, Nat.le_refl _, h.version _, fun _ => ⟨rfl, trivial⟩⟩

theorem head_swapHead (m : Shared τ σ) (s s' : σ) (head : Usize) :
    ((m.swapHead s head).stackAt s').head = if s' = s then head else (m.stackAt s').head := by
  simp only [swapHead, setStack, Function.update_apply]
  split <;> rfl

theorem updates_swapHead (m : Shared τ σ) (s s' : σ) (head : Usize) :
    (m.swapHead s head).updates s' = if s' = s then m.updates s + 1 else m.updates s' := by
  simp only [swapHead, Function.update_apply]

/-- The version moves on with every update. -/
theorem InvAt.version_swapHead (h : InvAt r m contents place) (s : σ) (index : Usize) (s' : σ) :
    versionOf (((m.swapHead s (PageStack.successor (m.stackAt s).head index)).stackAt s').head) =
      (m.swapHead s (PageStack.successor (m.stackAt s).head index)).updates s' % 2 ^ 40 := by
  rw [head_swapHead, updates_swapHead]
  split
  · rw [versionOf_successor, h.version s]
    omega
  · exact h.version s'

theorem heads_swapHead (m : Shared τ σ) (s s' : σ) (head : Usize) :
    (m.swapHead s head).updates s' = m.updates s' ∧
      ((m.swapHead s head).stackAt s').head = (m.stackAt s').head ∨
    m.updates s' < (m.swapHead s head).updates s' := by
  rw [head_swapHead, updates_swapHead]
  by_cases hs : s' = s
  · rw [if_pos hs, hs]
    exact .inr (Nat.lt_succ_self _)
  · rw [if_neg hs, if_neg hs]
    exact .inl ⟨rfl, rfl⟩

variable [DecidableEq τ]

omit [DecidableEq σ] in
theorem quiet_setCall (m : Shared τ σ) (t : τ) (call : Option (Call σ)) :
    Quiet t m (m.setCall t call) :=
  ⟨rfl, fun _ => rfl, rfl, rfl, rfl, fun _ hne => Function.update_of_ne hne _ _⟩

theorem quiet_count (m : Shared τ σ) (t : τ) (s : σ) (count : Usize) (call : Option (Call σ)) :
    Quiet t m ((m.setStack s { m.stackAt s with count := count }).setCall t call) := by
  refine ⟨rfl, ?_, rfl, rfl, rfl, fun _ hne => Function.update_of_ne hne _ _⟩
  intro s'
  simp only [setCall, setStack, Function.update_apply]
  split
  · rename_i heq
    rw [heq]
  · rfl

omit [DecidableEq σ] in
@[simp] theorem calls_setCall (m : Shared τ σ) (t : τ) (call : Option (Call σ)) :
    (m.setCall t call).calls t = call := Function.update_self ..

omit [DecidableEq σ] in
@[simp] theorem calls_moveTo (m : Shared τ σ) (t : τ) (call : Call σ) (point : Point) :
    (m.moveTo t call point).calls t = some { call with point := point } :=
  Function.update_self ..

/-- A thread's call moves on without a change to anything shared. -/
theorem InvAt.moveTo (h : InvAt r m contents place) (hc : m.calls t = some call)
    (hpoint : ∀ entry, call.point ≠ .popCount entry)
    (hok : m.CallOk r place t { call with point := point }) :
    InvAt r (m.moveTo t call point) contents place := by
  apply h.quiet (quiet_setCall m t _) _ (h.not_taken hc hpoint)
  intro call' hc'
  rw [calls_setCall] at hc'
  cases hc'
  exact hok

omit [DecidableEq σ] [DecidableEq τ] in
theorem notOfOthers_owned (t : τ) : Place.NotOfOthers t (.owned : Place τ σ) :=
  fun _ _ => ⟨nofun, nofun⟩

omit [DecidableEq σ] [DecidableEq τ] in
theorem notOfOthers_stored (t : τ) (s : σ) : Place.NotOfOthers t (.stored s : Place τ σ) :=
  fun _ _ => ⟨nofun, nofun⟩

omit [DecidableEq σ] [DecidableEq τ] in
theorem notOfOthers_pushing (t : τ) : Place.NotOfOthers t (.pushing t : Place τ σ) :=
  fun _ hne => ⟨fun heq => hne (Place.pushing.inj heq).symm, nofun⟩

omit [DecidableEq σ] [DecidableEq τ] in
theorem notOfOthers_taken (t : τ) (s : σ) : Place.NotOfOthers t (.taken t s : Place τ σ) :=
  fun _ hne => ⟨nofun, fun _ heq => hne (Place.taken.inj heq).1.symm⟩

omit [DecidableEq τ] in
/-- The part of the invariant that speaks of calls, after a step of one thread. -/
theorem InvAt.calls_of_interferes (h : InvAt r m contents place)
    (hi : Interferes t m m' place place')
    (hcall : ∀ call, m'.calls t = some call → m'.CallOk r place' t call)
    (htaken : ∀ entry s, place' entry = .taken t s →
      ∃ call, m'.calls t = some call ∧ call.stack = s ∧ call.point = .popCount entry) :
    (∀ entry t' s, place' entry = .taken t' s →
      ∃ call, m'.calls t' = some call ∧ call.stack = s ∧ call.point = .popCount entry) ∧
    ∀ t' call, m'.calls t' = some call → m'.CallOk r place' t' call := by
  constructor
  · intro entry t' s hplace
    by_cases hne : t' = t
    · rw [hne] at hplace ⊢
      exact htaken entry s hplace
    · rw [hi.calls t' hne]
      exact h.taken entry t' s ((hi.taken entry t' s hne).1 hplace)
  · intro t' call hc
    by_cases hne : t' = t
    · rw [hne] at hc ⊢
      exact hcall call hc
    · rw [hi.calls t' hne] at hc
      exact h.callOk_of_interferes hi hne (h.calls t' call hc)

/-- A push begins with an entry that its caller owns. -/
theorem InvAt.pushStart (h : InvAt r m contents place) (hidle : m.calls t = none)
    (howned : m.owned entry = true) (hentry : r.IsEntry entry) (s : σ) :
    InvAt r ((m.setOwned entry false).setCall t (some ⟨s, m.updates s, .pushCount entry⟩)) contents
      (Function.update place entry (.pushing t)) := by
  have hplace := h.owned entry howned
  have hother : ∀ e t', t' ≠ t → _ := fun e t' hne =>
    update_pushing (hplace ▸ notOfOthers_owned t) (notOfOthers_pushing t) e t' hne
  have hi : Interferes t m
      ((m.setOwned entry false).setCall t (some ⟨s, m.updates s, .pushCount entry⟩)) place
      (Function.update place entry (.pushing t)) :=
    ⟨fun t' hne => Function.update_of_ne hne _ _, fun e t' hne => (hother e t' hne).1.2,
      fun e t' s' hne => (hother e t' hne).2 s', fun _ _ => rfl, fun _ => .inl ⟨rfl, rfl⟩⟩
  have hinside : ∀ s' e, Inside (Function.update place entry (.pushing t)) s' e ↔
      Inside place s' e := by
    intro s' e
    unfold Inside
    by_cases he : e = entry
    · subst he
      rw [Function.update_self, hplace]
      simp
    · rw [Function.update_of_ne he]
  obtain ⟨htaken, hcalls⟩ := h.calls_of_interferes hi (by
      intro call hc
      rw [calls_setCall] at hc
      cases hc
      exact ⟨Nat.le_refl _, Function.update_self .., hentry⟩) (by
      intro e s' he
      by_cases heq : e = entry
      · subst heq
        rw [Function.update_self] at he
        cases he
      · rw [Function.update_of_ne heq] at he
        exact absurd he (h.not_taken_of_idle hidle e s'))
  refine ⟨h.chain, h.nodup, ?_, ?_, htaken, hcalls, h.version, ?_, ?_, h.alternates⟩
  · intro s' e
    rw [h.stored s' e]
    by_cases he : e = entry
    · subst he
      rw [Function.update_self, hplace]
      simp
    · rw [Function.update_of_ne he]
  · intro e he
    by_cases heq : e = entry
    · subst heq
      simp [setCall, setOwned] at he
    · rw [Function.update_of_ne heq]
      apply h.owned e
      simpa [setCall, setOwned, Function.update_of_ne heq] using he
  · intro s' e hin
    exact h.pushed s' e ((hinside s' e).1 hin)
  · intro s' e hin
    exact h.popped s' e fun hin' => hin ((hinside s' e).2 hin')

/-- A push writes its link. -/
theorem InvAt.pushLink (h : InvAt r m contents place) (hc : m.calls t = some call)
    (hp : call.point = .pushLink entry head) :
    InvAt r ((m.setLink entry (head &&& stackIndexMask)).moveTo t call (.pushSwap entry head))
      contents place := by
  obtain ⟨hbegan, hpoint⟩ := h.calls t call hc
  rw [hp] at hpoint
  obtain ⟨hplace, hentry⟩ := hpoint
  have hlink : ∀ e, place e ≠ .pushing t →
      Function.update m.link entry (head &&& stackIndexMask) e = m.link e := by
    intro e he
    apply Function.update_of_ne
    intro heq
    exact he (heq ▸ hplace)
  have hi : Interferes t m
      ((m.setLink entry (head &&& stackIndexMask)).moveTo t call (.pushSwap entry head)) place
      place :=
    ⟨fun t' hne => Function.update_of_ne hne _ _, fun _ _ _ h => h, fun _ _ _ _ => Iff.rfl,
      hlink, fun _ => .inl ⟨rfl, rfl⟩⟩
  obtain ⟨htaken, hcalls⟩ := h.calls_of_interferes hi (by
      intro call' hc'
      rw [calls_moveTo] at hc'
      cases hc'
      exact ⟨hbegan, hplace, hentry, Function.update_self ..⟩)
    fun e s he => absurd he (h.not_taken hc (by rw [hp]; nofun) e s)
  refine ⟨?_, h.nodup, h.stored, h.owned, htaken, hcalls, h.version, h.pushed, h.popped,
    h.alternates⟩
  intro s
  apply chain_congr (contents s) _ (h.chain s)
  intro e he
  apply hlink
  rw [(h.stored s e).1 he]
  nofun

/-- A push installs its entry. -/
theorem InvAt.pushSwap (h : InvAt r m contents place) (hc : m.calls t = some call)
    (hp : call.point = .pushSwap entry (m.stackAt call.stack).head) :
    InvAt r (((m.swapHead call.stack (PageStack.successor (m.stackAt call.stack).head
      (r.stackIndex entry))).record (.pushed call.stack entry)).setCall t none)
      (Function.update contents call.stack (entry :: contents call.stack))
      (Function.update place entry (.stored call.stack)) := by
  obtain ⟨hbegan, hpoint⟩ := h.calls t call hc
  rw [hp] at hpoint
  obtain ⟨hplace, hentry, hlink⟩ := hpoint
  have hother : ∀ e t', t' ≠ t → _ := fun e t' hne =>
    update_pushing (hplace ▸ notOfOthers_pushing t) (notOfOthers_stored t call.stack) e t' hne
  have hi : Interferes t m (((m.swapHead call.stack (PageStack.successor
      (m.stackAt call.stack).head (r.stackIndex entry))).record
      (.pushed call.stack entry)).setCall t none) place
      (Function.update place entry (.stored call.stack)) :=
    ⟨fun t' hne => Function.update_of_ne hne _ _, fun e t' hne => (hother e t' hne).1.2,
      fun e t' s' hne => (hother e t' hne).2 s', fun _ _ => rfl,
      fun s => heads_swapHead m call.stack s _⟩
  obtain ⟨htaken, hcalls⟩ := h.calls_of_interferes hi (by
      intro call' hc'
      rw [calls_setCall] at hc'
      cases hc') (by
      intro e s' he
      by_cases heq : e = entry
      · subst heq
        rw [Function.update_self] at he
        cases he
      · rw [Function.update_of_ne heq] at he
        exact absurd he (h.not_taken hc (by rw [hp]; nofun) e s'))
  have hnot : ∀ s, entry ∉ contents s := by
    intro s hmem
    rw [h.stored, hplace] at hmem
    cases hmem
  have hinside : ∀ s e, Inside (Function.update place entry (.stored call.stack)) s e ↔
      Inside place s e ∨ call.stack = s ∧ entry = e := by
    intro s e
    unfold Inside
    by_cases he : e = entry
    · subst he
      rw [Function.update_self, hplace]
      simp
    · rw [Function.update_of_ne he]
      simp [Ne.symm he]
  have houtside : ¬ Inside place call.stack entry := by
    unfold Inside
    rw [hplace]
    simp
  have hcount := h.popped call.stack entry houtside
  have hpushed : ∀ s e, Inside (Function.update place entry (.stored call.stack)) s e →
      (m.log ++ [Event.pushed call.stack entry]).count (.pushed s e) =
        (m.log ++ [Event.pushed call.stack entry]).count (.popped s e) + 1 := by
    intro s e hin
    rw [(count_concat_pushed m.log call.stack s entry e).1,
      (count_concat_pushed m.log call.stack s entry e).2]
    by_cases heq : call.stack = s ∧ entry = e
    · rw [if_pos heq, ← heq.1, ← heq.2, hcount]
    · rw [if_neg heq, h.pushed s e (((hinside s e).1 hin).resolve_right heq)]
  have hpopped : ∀ s e, ¬ Inside (Function.update place entry (.stored call.stack)) s e →
      (m.log ++ [Event.pushed call.stack entry]).count (.pushed s e) =
        (m.log ++ [Event.pushed call.stack entry]).count (.popped s e) := by
    intro s e hin
    rw [hinside, not_or] at hin
    rw [(count_concat_pushed m.log call.stack s entry e).1,
      (count_concat_pushed m.log call.stack s entry e).2, if_neg hin.2, h.popped s e hin.1,
      Nat.add_zero]
  refine ⟨?_, ?_, ?_, ?_, htaken, hcalls, fun s => h.version_swapHead call.stack _ s, hpushed,
    hpopped, h.alternates.append _ hpushed hpopped⟩
  · intro s
    have hhead : (((((m.swapHead call.stack (PageStack.successor (m.stackAt call.stack).head
        (r.stackIndex entry))).record (.pushed call.stack entry)).setCall t none).stackAt s).head) =
        _ := head_swapHead m call.stack s _
    rw [hhead]
    by_cases hs : s = call.stack
    · rw [if_pos hs, hs, Function.update_self, index_successor, hentry.2.1]
      refine ⟨hentry.1, hentry.2.1, hentry.2.2, ?_⟩
      have hchain := h.chain call.stack
      rw [← hlink] at hchain
      exact hchain
    · rw [if_neg hs, Function.update_of_ne hs]
      exact h.chain s
  · intro s
    by_cases hs : s = call.stack
    · rw [hs, Function.update_self]
      exact List.nodup_cons.2 ⟨hnot _, h.nodup _⟩
    · rw [Function.update_of_ne hs]
      exact h.nodup s
  · intro s e
    by_cases he : e = entry
    · subst he
      rw [Function.update_self]
      by_cases hs : s = call.stack
      · rw [hs, Function.update_self]
        simp
      · rw [Function.update_of_ne hs]
        exact iff_of_false (hnot s) fun heq => hs (Place.stored.inj heq).symm
    · rw [Function.update_of_ne he, ← h.stored]
      by_cases hs : s = call.stack
      · rw [hs, Function.update_self, List.mem_cons]
        simp [he]
      · rw [Function.update_of_ne hs]
  · intro e howned
    have hne : e ≠ entry := by
      intro heq
      have hwas := h.owned e howned
      rw [heq, hplace] at hwas
      cases hwas
    rw [Function.update_of_ne hne]
    exact h.owned e howned

omit [DecidableEq τ] in
/-- A pop whose head is still the present one has read the link of the top entry. -/
theorem InvAt.popSwap_link (h : InvAt r m contents place) (hc : m.calls t = some call)
    (hp : call.point = .popSwap (m.stackAt call.stack).head next)
    (hwrap : m.updates call.stack < call.began + 2 ^ 40) :
    (m.stackAt call.stack).head &&& stackIndexMask ≠ 0 ∧
      next = m.link (r.stackEntry ((m.stackAt call.stack).head &&& stackIndexMask)) := by
  obtain ⟨-, hpoint⟩ := h.calls t call hc
  rw [hp] at hpoint
  obtain ⟨hne, u, hbegan, hle, hversion, hnow⟩ := hpoint
  rw [h.version call.stack] at hversion
  have hu : u = m.updates call.stack := by omega
  exact ⟨hne, (hnow hu).2⟩

/-- A pop takes the top entry. -/
theorem InvAt.popSwap (h : InvAt r m contents place) (hc : m.calls t = some call)
    (hp : call.point = .popSwap (m.stackAt call.stack).head next)
    (hwrap : m.updates call.stack < call.began + 2 ^ 40) :
    ∃ contents' place', InvAt r
      ((m.swapHead call.stack (PageStack.successor (m.stackAt call.stack).head next)).moveTo t
        call (.popCount (r.stackEntry ((m.stackAt call.stack).head &&& stackIndexMask))))
      contents' place' := by
  obtain ⟨hne, hnext⟩ := h.popSwap_link hc hp hwrap
  obtain ⟨rest, hcontents, hrest⟩ := chain_ne_zero (h.chain call.stack) hne
  generalize hentry : r.stackEntry ((m.stackAt call.stack).head &&& stackIndexMask) = entry at *
  have hbegan := (h.calls t call hc).1
  have hplace : place entry = .stored call.stack := by
    rw [← h.stored, hcontents]
    exact List.mem_cons_self
  have hnodup := h.nodup call.stack
  rw [hcontents, List.nodup_cons] at hnodup
  have hother : ∀ e t', t' ≠ t → _ := fun e t' hne =>
    update_pushing (hplace ▸ notOfOthers_stored t call.stack) (notOfOthers_taken t call.stack) e t'
      hne
  have hi : Interferes t m ((m.swapHead call.stack (PageStack.successor
      (m.stackAt call.stack).head next)).moveTo t call (.popCount entry)) place
      (Function.update place entry (.taken t call.stack)) :=
    ⟨fun t' hne => Function.update_of_ne hne _ _, fun e t' hne => (hother e t' hne).1.2,
      fun e t' s' hne => (hother e t' hne).2 s', fun _ _ => rfl,
      fun s => heads_swapHead m call.stack s _⟩
  obtain ⟨htaken, hcalls⟩ := h.calls_of_interferes hi (by
      intro call' hc'
      rw [calls_moveTo] at hc'
      cases hc'
      exact ⟨Nat.le_trans hbegan (hi.updates_le _), Function.update_self ..⟩) (by
      intro e s' he
      by_cases heq : e = entry
      · subst heq
        rw [Function.update_self] at he
        cases he
        exact ⟨_, calls_moveTo .., rfl, rfl⟩
      · rw [Function.update_of_ne heq] at he
        exact absurd he (h.not_taken hc (by rw [hp]; nofun) e s'))
  have hinside : ∀ s e, Inside (Function.update place entry (.taken t call.stack)) s e ↔
      Inside place s e := by
    intro s e
    unfold Inside
    by_cases he : e = entry
    · subst he
      rw [Function.update_self, hplace]
      simp
    · rw [Function.update_of_ne he]
  refine ⟨Function.update contents call.stack rest,
    Function.update place entry (.taken t call.stack), ?_, ?_, ?_, ?_, htaken, hcalls,
    fun s => h.version_swapHead call.stack _ s, fun s e hin => h.pushed s e ((hinside s e).1 hin),
    fun s e hin => h.popped s e fun hin' => hin ((hinside s e).2 hin'), h.alternates⟩
  · intro s
    have hhead : ((((m.swapHead call.stack (PageStack.successor (m.stackAt call.stack).head
        next)).moveTo t call (.popCount entry)).stackAt s).head) = _ :=
      head_swapHead m call.stack s _
    rw [hhead]
    by_cases hs : s = call.stack
    · rw [if_pos hs, hs, Function.update_self, index_successor, hnext, chain_masked hrest]
      exact hrest
    · rw [if_neg hs, Function.update_of_ne hs]
      exact h.chain s
  · intro s
    by_cases hs : s = call.stack
    · rw [hs, Function.update_self]
      exact hnodup.2
    · rw [Function.update_of_ne hs]
      exact h.nodup s
  · intro s e
    by_cases he : e = entry
    · subst he
      rw [Function.update_self]
      by_cases hs : s = call.stack
      · rw [hs, Function.update_self]
        exact iff_of_false hnodup.1 nofun
      · rw [Function.update_of_ne hs, h.stored, hplace]
        exact iff_of_false (fun heq => hs (Place.stored.inj heq).symm) nofun
    · rw [Function.update_of_ne he, ← h.stored]
      by_cases hs : s = call.stack
      · rw [hs, Function.update_self, hcontents, List.mem_cons]
        simp [he]
      · rw [Function.update_of_ne hs]
  · intro e howned
    have hne : e ≠ entry := by
      intro heq
      have hwas := h.owned e howned
      rw [heq, hplace] at hwas
      cases hwas
    rw [Function.update_of_ne hne]
    exact h.owned e howned

/-- A pop returns its entry to its caller. -/
theorem InvAt.popCount (h : InvAt r m contents place) (hc : m.calls t = some call)
    (hp : call.point = .popCount entry) (count : Usize) :
    InvAt r ((((m.setStack call.stack { m.stackAt call.stack with count := count }).setOwned entry
      true).record (.popped call.stack entry)).setCall t none) contents
      (Function.update place entry .owned) := by
  obtain ⟨-, hpoint⟩ := h.calls t call hc
  rw [hp] at hpoint
  have hplace : place entry = .taken t call.stack := hpoint
  have hhead : ∀ s, (Function.update m.stackAt call.stack
      { m.stackAt call.stack with count := count } s).head = (m.stackAt s).head := by
    intro s
    rw [Function.update_apply]
    split
    · rename_i hs
      rw [hs]
    · rfl
  have hother : ∀ e t', t' ≠ t → _ := fun e t' hne =>
    update_pushing (hplace ▸ notOfOthers_taken t call.stack) (notOfOthers_owned t) e t' hne
  have hi : Interferes t m ((((m.setStack call.stack
      { m.stackAt call.stack with count := count }).setOwned entry true).record
      (.popped call.stack entry)).setCall t none) place (Function.update place entry .owned) :=
    ⟨fun t' hne => Function.update_of_ne hne _ _, fun e t' hne => (hother e t' hne).1.2,
      fun e t' s' hne => (hother e t' hne).2 s', fun _ _ => rfl, fun s => .inl ⟨rfl, hhead s⟩⟩
  obtain ⟨htaken, hcalls⟩ := h.calls_of_interferes hi (by
      intro call' hc'
      rw [calls_setCall] at hc'
      cases hc') (by
      intro e s' he
      by_cases heq : e = entry
      · subst heq
        rw [Function.update_self] at he
        cases he
      · rw [Function.update_of_ne heq] at he
        obtain ⟨call', hc', -, hp'⟩ := h.taken e t s' he
        rw [hc] at hc'
        cases hc'
        rw [hp] at hp'
        exact absurd (Point.popCount.inj hp').symm heq)
  have hinside : ∀ s e, Inside place s e ↔
      Inside (Function.update place entry .owned) s e ∨ call.stack = s ∧ entry = e := by
    intro s e
    unfold Inside
    by_cases he : e = entry
    · subst he
      rw [Function.update_self, hplace]
      simp
    · rw [Function.update_of_ne he]
      simp [Ne.symm he]
  have houtside : ¬ Inside (Function.update place entry .owned) call.stack entry := by
    unfold Inside
    rw [Function.update_self]
    simp
  have hcount := h.pushed call.stack entry ((hinside _ _).2 (.inr ⟨rfl, rfl⟩))
  have hpushed : ∀ s e, Inside (Function.update place entry .owned) s e →
      (m.log ++ [Event.popped call.stack entry]).count (.pushed s e) =
        (m.log ++ [Event.popped call.stack entry]).count (.popped s e) + 1 := by
    intro s e hin
    have hneq : ¬ (call.stack = s ∧ entry = e) := by
      rintro ⟨rfl, rfl⟩
      exact houtside hin
    rw [(count_concat_popped m.log call.stack s entry e).1,
      (count_concat_popped m.log call.stack s entry e).2, if_neg hneq,
      h.pushed s e ((hinside s e).2 (.inl hin))]
  have hpopped : ∀ s e, ¬ Inside (Function.update place entry .owned) s e →
      (m.log ++ [Event.popped call.stack entry]).count (.pushed s e) =
        (m.log ++ [Event.popped call.stack entry]).count (.popped s e) := by
    intro s e hin
    rw [(count_concat_popped m.log call.stack s entry e).1,
      (count_concat_popped m.log call.stack s entry e).2]
    by_cases heq : call.stack = s ∧ entry = e
    · rw [if_pos heq, ← heq.1, ← heq.2, hcount]
    · have hwas : ¬ Inside place s e := by
        intro hin'
        rcases (hinside s e).1 hin' with hin' | heq'
        · exact hin hin'
        · exact heq heq'
      rw [if_neg heq, h.popped s e hwas, Nat.add_zero]
  refine ⟨?_, h.nodup, ?_, ?_, htaken, hcalls, ?_, hpushed, hpopped,
    h.alternates.append _ hpushed hpopped⟩
  · intro s
    have hchain := h.chain s
    rw [← hhead s] at hchain
    exact hchain
  · intro s e
    rw [h.stored s e]
    by_cases he : e = entry
    · subst he
      rw [Function.update_self, hplace]
      simp
    · rw [Function.update_of_ne he]
  · intro e howned
    by_cases heq : e = entry
    · subst heq
      rw [Function.update_self]
    · rw [Function.update_of_ne heq]
      apply h.owned e
      simpa [setCall, setOwned, record, setStack, Function.update_of_ne heq] using howned
  · intro s
    have hversion := h.version s
    rw [← hhead s] at hversion
    exact hversion

/-- Every step of a call in flight keeps the invariant. -/
theorem InvAt.advance (h : InvAt r m contents place) (hwrap : m.Unwrapped)
    (hc : m.calls t = some call) :
    ∃ contents' place', InvAt r (m.advance r t call) contents' place' := by
  obtain ⟨hbegan, hpoint⟩ := h.calls t call hc
  unfold Shared.advance
  cases hp : call.point with
  | pushCount entry =>
    rw [hp] at hpoint
    refine ⟨contents, place, h.quiet (quiet_count m t call.stack _ _) ?_
      (h.not_taken hc (by rw [hp]; nofun))⟩
    intro call' hc'
    dsimp only at hc'
    rw [calls_moveTo] at hc'
    cases hc'
    exact ⟨hbegan, hpoint⟩
  | pushLoad entry =>
    rw [hp] at hpoint
    exact ⟨contents, place, h.moveTo hc (by rw [hp]; nofun) ⟨hbegan, hpoint⟩⟩
  | pushLink entry head => exact ⟨contents, place, h.pushLink hc hp⟩
  | pushSwap entry head =>
    rw [hp] at hpoint
    dsimp only
    split
    · rename_i hhead
      rw [← hhead] at hp ⊢
      exact ⟨_, _, h.pushSwap hc hp⟩
    · exact ⟨contents, place, h.moveTo hc (by rw [hp]; nofun)
        ⟨hbegan, hpoint.1, hpoint.2.1⟩⟩
  | popLoad =>
    exact ⟨contents, place, h.moveTo hc (by rw [hp]; nofun) ⟨hbegan, h.seen_now call hbegan⟩⟩
  | popRead head =>
    rw [hp] at hpoint
    dsimp only
    split
    · refine ⟨contents, place, h.quiet (quiet_setCall m t none) ?_
        (h.not_taken hc (by rw [hp]; nofun))⟩
      intro call' hc'
      rw [calls_setCall] at hc'
      cases hc'
    · rename_i hne
      refine ⟨contents, place, h.moveTo hc (by rw [hp]; nofun) ⟨hbegan, hne, ?_⟩⟩
      obtain ⟨u, hlow, hle, hversion, hnow⟩ := hpoint
      exact ⟨u, hlow, hle, hversion, fun hu => ⟨(hnow hu).1, rfl⟩⟩
  | popSwap head next =>
    dsimp only
    split
    · rename_i hhead
      rw [← hhead] at hp ⊢
      exact h.popSwap hc hp (hwrap t call hc)
    · exact ⟨contents, place, h.moveTo hc (by rw [hp]; nofun) ⟨hbegan, h.seen_now call hbegan⟩⟩
  | popCount entry => exact ⟨contents, _, h.popCount hc hp _⟩

theorem InvAt.failSwap (h : InvAt r m contents place) (hc : m.calls t = some call)
    (hs : m.failSwap t call = some m') : InvAt r m' contents place := by
  obtain ⟨hbegan, hpoint⟩ := h.calls t call hc
  unfold Shared.failSwap at hs
  cases hp : call.point with
  | pushSwap entry head =>
    rw [hp] at hpoint hs
    cases hs
    exact h.moveTo hc (by rw [hp]; nofun) ⟨hbegan, hpoint.1, hpoint.2.1⟩
  | popSwap head next =>
    rw [hp] at hs
    cases hs
    exact h.moveTo hc (by rw [hp]; nofun) ⟨hbegan, h.seen_now call hbegan⟩
  | pushCount entry | pushLoad entry | pushLink entry head | popLoad | popRead head
  | popCount entry =>
    rw [hp] at hs
    cases hs

/-- The invariant for some contents of the stacks. -/
def Inv (r : Range) (m : Shared τ σ) : Prop := ∃ contents place, InvAt r m contents place

omit [DecidableEq τ] in
theorem inv_initial (r : Range) (link : Usize → Usize) :
    Inv r (initial link : Shared τ σ) := by
  refine ⟨fun _ => [], fun _ => .owned, ?_⟩
  refine ⟨?_, fun _ => List.nodup_nil, ?_, fun _ _ => rfl, ?_, ?_, ?_, ?_, ?_, ?_⟩
  · intro s
    exact BitVec.zero_and
  · intro s entry
    simp
  · intro entry t s hplace
    cases hplace
  · intro t call hc
    cases hc
  · intro s
    simp [versionOf, initial]
  · rintro s entry (hplace | ⟨t, hplace⟩) <;> cases hplace
  · intro s entry hin
    rfl
  · intro l hl s entry
    have hnil : l = [] := List.prefix_nil.1 hl
    simp [hnil]

/-- One step of the system keeps the invariant while no version has wrapped. -/
theorem inv_step (hm : Inv r m) (hwrap : m.Unwrapped) (hs : m.step r action = some m') :
    Inv r m' := by
  obtain ⟨contents, place, h⟩ := hm
  cases action with
  | push t s entry =>
    simp only [step] at hs
    split at hs
    · rename_i hguard
      cases hs
      obtain ⟨hidle, howned, hentry⟩ := hguard
      exact ⟨contents, _, h.pushStart (Option.isNone_iff_eq_none.1 hidle) howned hentry s⟩
    · cases hs
  | pop t s =>
    simp only [step] at hs
    split at hs
    · rename_i hidle
      cases hs
      refine ⟨contents, place, h.quiet (quiet_setCall m t _) ?_
        (h.not_taken_of_idle (Option.isNone_iff_eq_none.1 hidle))⟩
      intro call hc
      rw [calls_setCall] at hc
      cases hc
      exact ⟨Nat.le_refl _, trivial⟩
    · cases hs
  | advance t =>
    obtain ⟨call, hc, rfl⟩ := Option.map_eq_some_iff.1 hs
    exact h.advance hwrap hc
  | fail t =>
    obtain ⟨call, hc, hf⟩ := Option.bind_eq_some_iff.1 hs
    exact ⟨contents, place, h.failSwap hc hf⟩

/-- In every run in which no version wraps during a call, pushes and pops of an entry alternate,
and once no call is in flight the entries reachable from a head are those pushed and not popped. -/
theorem pageStack_conserves (r : Range) (link : Usize → Usize) (actions : List (Action τ σ))
    (hrun : run (step r) (initial link) actions = some m)
    (hwrap : Meets (step r) (fun m _ => m.Unwrapped) (initial link) actions) :
    Alternates m.log ∧
    (m.Quiescent → ∀ s, ∃ entries : List Usize,
      Chain r m.link ((m.stackAt s).head &&& stackIndexMask) entries ∧ entries.Nodup ∧
      ∀ entry, entry ∈ entries ↔
        m.log.count (.pushed s entry) = m.log.count (.popped s entry) + 1) := by
  obtain ⟨contents, place, h⟩ := run_invariant (fun _ _ _ hm hw hs => inv_step hm hw hs)
    (inv_initial r link) hwrap hrun
  refine ⟨h.alternates, ?_⟩
  intro hquiet s
  refine ⟨contents s, h.chain s, h.nodup s, ?_⟩
  intro entry
  constructor
  · intro hmem
    exact h.pushed s entry (.inl ((h.stored s entry).1 hmem))
  · intro hcount
    by_contra hmem
    have hout : ¬ Inside place s entry := by
      rintro (hstored | ⟨t, htaken⟩)
      · exact hmem ((h.stored s entry).2 hstored)
      · obtain ⟨call, hc, -⟩ := h.taken entry t s htaken
        rw [hquiet t] at hc
        cases hc
    have := h.popped s entry hout
    omega

instance [Fintype τ] (m : Shared τ σ) : Decidable m.Unwrapped :=
  inferInstanceAs (Decidable (∀ t, ∀ call ∈ m.calls t, _))

instance [Fintype τ] (m : Shared τ σ) : Decidable m.Quiescent :=
  decidable_of_iff (∀ t, (m.calls t).isNone = true) (by simp [Quiescent])

/-- Two entries pushed; one thread's pop sleeps between its link read and its swap while another
thread pops both entries and pushes the first one back. -/
def sleepingPop : List (Action Bool Unit) :=
  let push (t : Bool) (entry : Usize) : List (Action Bool Unit) :=
    .push t () entry :: List.replicate 4 (.advance t)
  let pop (t : Bool) : List (Action Bool Unit) := .pop t () :: List.replicate 4 (.advance t)
  push true 0x20000 ++ push true 0x30000 ++ [.pop true (), .advance true, .advance true] ++
    pop false ++ pop false ++ push false 0x30000 ++
    [.advance true, .advance true, .fail true, .advance true, .advance true, .advance true]

theorem pageStack_conserves_sleepingPop :
    ∃ m : Shared Bool Unit,
      run (step (Range.ofMapping 0 (32 <<< 30))) (initial fun _ => 0) sleepingPop = some m ∧
      Alternates m.log ∧ ∃ entries : List Usize,
        Chain (Range.ofMapping 0 (32 <<< 30)) m.link
          ((m.stackAt ()).head &&& stackIndexMask) entries ∧ entries.Nodup ∧
        ∀ entry, entry ∈ entries ↔
          m.log.count (.pushed () entry) = m.log.count (.popped () entry) + 1 := by
  have hsome : ((run (step (Range.ofMapping 0 (32 <<< 30))) (initial fun _ => 0)
      sleepingPop).any fun m => decide m.Quiescent) = true := by decide +kernel
  have hwrap : Meets (step (Range.ofMapping 0 (32 <<< 30))) (fun m _ => m.Unwrapped)
      (initial fun _ => 0) sleepingPop := by decide +kernel
  obtain ⟨m, hm, hquiet⟩ := (Option.any_eq_true _ _).1 hsome
  obtain ⟨halternates, hentries⟩ := pageStack_conserves _ _ sleepingPop hm hwrap
  exact ⟨m, hm, halternates, hentries (of_decide_eq_true hquiet) ()⟩

end Shared

end Rphp.Heap
