import Rphp.Lib.Run
import Rphp.Lib.Slots
import Rphp.Machine
import Mathlib.Data.List.Sort
import Mathlib.Data.List.Pairwise

namespace Rphp.Value
open Rphp.Lib
set_option autoImplicit true

def u32Max : Nat := 4294967295

/-- The handle bits below the three lifecycle flags. -/
def objectHandleMask : Nat := 536870911

/-- Handle numbering of one thread. The identities retained from earlier requests are sorted. -/
structure ObjectHandleState where
  next : Nat
  released : List Nat
  beforeRequest : List Nat
  stale : List Nat
  inRequest : Bool
  sorted : stale.Pairwise (· ≤ ·)
deriving DecidableEq

namespace ObjectHandleState

def default : ObjectHandleState := ⟨0, [], [], [], false, .nil⟩

def beginRequest (s : ObjectHandleState) : ObjectHandleState where
  next := 1
  released := []
  beforeRequest := []
  stale := (s.stale ++ s.beforeRequest).insertionSort (· ≤ ·)
  inRequest := true
  sorted := List.pairwise_insertionSort _ _

def endRequest (s : ObjectHandleState) : ObjectHandleState := { s with inRequest := false }

/-- The free stack first, then the next number. An exhausted handle space panics. -/
def allocate (s : ObjectHandleState) : Option (Nat × ObjectHandleState) :=
  match s.released.getLast? with
  | some handle =>
    if handle ≤ objectHandleMask then some (handle, { s with released := s.released.dropLast })
    else none
  | none =>
    let handle := if s.next = 0 then 1 else s.next
    if handle + 1 ≤ u32Max ∧ handle ≤ objectHandleMask then
      some (handle, { s with next := handle + 1 })
    else
      none

def registerIdentity (s : ObjectHandleState) (identity : Nat) : ObjectHandleState :=
  if s.inRequest then s else { s with beforeRequest := s.beforeRequest ++ [identity] }

/-- The position of an identity in the sorted retained identities, behind the range check. -/
def stalePosition (s : ObjectHandleState) (identity : Nat) : Option Nat :=
  if s.stale.head?.any (· ≤ identity) ∧ s.stale.getLast?.any (identity ≤ ·) then
    s.stale.idxOf? identity
  else
    none

def release (s : ObjectHandleState) (identity handle : Nat) : ObjectHandleState :=
  match s.stalePosition identity with
  | some position =>
    { s with
      stale := s.stale.eraseIdx position
      sorted := s.sorted.sublist (List.eraseIdx_sublist _ _) }
  | none =>
    let beforeRequest :=
      match s.beforeRequest.idxOf? identity with
      | some position => swapRemove s.beforeRequest position
      | none => s.beforeRequest
    { s with beforeRequest := beforeRequest, released := s.released ++ [handle] }

/-- The range check never hides an identity that is retained. -/
theorem stalePosition_eq (s : ObjectHandleState) (identity : Nat) :
    s.stalePosition identity = s.stale.idxOf? identity := by
  unfold stalePosition
  split
  · rfl
  · rename_i h
    symm
    rw [List.idxOf?_eq_none_iff]
    intro hmem
    apply h
    rw [List.head?_eq_some_head (List.ne_nil_of_mem hmem),
      List.getLast?_eq_some_getLast (List.ne_nil_of_mem hmem)]
    simp only [Option.any_some, decide_eq_true_eq]
    exact ⟨s.sorted.rel_head hmem, s.sorted.rel_getLast hmem⟩

theorem release_of_mem (s : ObjectHandleState) (h : identity ∈ s.stale) (handle : Nat) :
    (s.release identity handle).stale = s.stale.erase identity ∧
      (s.release identity handle).beforeRequest = s.beforeRequest ∧
      (s.release identity handle).released = s.released ∧
      (s.release identity handle).next = s.next := by
  obtain ⟨position, hp⟩ := Option.ne_none_iff_exists'.1 (mt List.idxOf?_eq_none_iff.1 (by simpa))
  have he : s.stale.erase identity = s.stale.eraseIdx position := by
    rw [List.erase_eq_eraseIdx, hp]
  simp only [release, stalePosition_eq, hp, he, and_self]

theorem release_of_not_mem (s : ObjectHandleState) (h : identity ∉ s.stale) (handle : Nat) :
    (s.release identity handle).stale = s.stale ∧
      (s.release identity handle).beforeRequest.Perm (s.beforeRequest.erase identity) ∧
      (s.release identity handle).released = s.released ++ [handle] ∧
      (s.release identity handle).next = s.next := by
  have hp : s.stalePosition identity = none := by
    rw [stalePosition_eq]
    exact List.idxOf?_eq_none_iff.2 h
  simp only [release, hp, true_and, and_true]
  cases hb : s.beforeRequest.idxOf? identity with
  | none => rw [List.erase_of_not_mem (List.idxOf?_eq_none_iff.1 hb)]
  | some position =>
    have hget : s.beforeRequest[position]? = some identity := by
      obtain ⟨hlt, he, _⟩ := List.idxOf?_eq_some_iff.1 hb
      exact List.getElem?_eq_some_iff.2 ⟨hlt, by simpa using he⟩
    have h1 := swapRemove_perm hget
    have h2 := List.perm_cons_erase (List.mem_of_getElem? hget)
    exact List.perm_cons identity |>.1 (h1.trans h2)

/-- A handle comes off the free stack, or is the next number when the stack is empty. -/
theorem allocate_eq_some {s s' : ObjectHandleState} (h : s.allocate = some (handle, s')) :
    (s'.stale = s.stale ∧ s'.beforeRequest = s.beforeRequest ∧ s'.inRequest = s.inRequest) ∧
      (s.released = s'.released ++ [handle] ∧ s'.next = s.next ∨
        s.released = [] ∧ s'.released = [] ∧ handle = (if s.next = 0 then 1 else s.next) ∧
          s'.next = handle + 1) := by
  unfold allocate at h
  split at h
  · rename_i last hl
    split at h
    · cases h
      refine ⟨⟨rfl, rfl, rfl⟩, .inl ⟨?_, rfl⟩⟩
      exact (List.dropLast_append_getLast? handle hl).symm
    · cases h
  · rename_i hl
    have hnil := List.getLast?_eq_none_iff.1 hl
    generalize (if s.next = 0 then 1 else s.next) = number at h ⊢
    simp only at h
    split at h
    · cases h
      exact ⟨⟨rfl, rfl, rfl⟩, .inr ⟨hnil, hnil, rfl, rfl⟩⟩
    · cases h

end ObjectHandleState

/-- A live object: its identity and handle, and in which request epoch it was made. -/
structure HandleOwner where
  identity : Nat
  handle : Nat
  epoch : Nat
  inRequest : Bool
deriving DecidableEq, Repr

/-- The handle state with all live objects and the number of request starts so far. -/
structure HandleWorld where
  state : ObjectHandleState
  owners : List HandleOwner
  epoch : Nat

inductive HandleOp where
  | create (identity : Nat)
  | release (identity : Nat)
  | beginRequest
  | endRequest
deriving DecidableEq, Repr

namespace HandleWorld

def init : HandleWorld := ⟨.default, [], 0⟩

/-- An address in use cannot be given out again, and only a live object is released. -/
def step (w : HandleWorld) : HandleOp → Option HandleWorld
  | .create identity =>
    if identity ∈ w.owners.map HandleOwner.identity then none
    else
      w.state.allocate.map fun r =>
        { w with
          state := r.2.registerIdentity identity
          owners := ⟨identity, r.1, w.epoch, r.2.inRequest⟩ :: w.owners }
  | .release identity =>
    (w.owners.find? (·.identity = identity)).map fun owner =>
      { w with
        state := w.state.release owner.identity owner.handle
        owners := w.owners.erase owner }
  | .beginRequest => some { w with state := w.state.beginRequest, epoch := w.epoch + 1 }
  | .endRequest => some { w with state := w.state.endRequest }

/-- The objects made since the latest request start. -/
def current (w : HandleWorld) : List HandleOwner := w.owners.filter (·.epoch = w.epoch)

/-- An object made inside a request is released before the next request starts. -/
def RequestLocal (w : HandleWorld) : HandleOp → Prop
  | .release identity => ∀ owner ∈ w.owners, owner.identity = identity → owner.inRequest →
      owner.epoch = w.epoch
  | _ => True

instance (w : HandleWorld) : (op : HandleOp) → Decidable (w.RequestLocal op)
  | .release identity => inferInstanceAs (Decidable (∀ owner ∈ w.owners,
      owner.identity = identity → owner.inRequest → owner.epoch = w.epoch))
  | .create _ | .beginRequest | .endRequest => .isTrue trivial

/-- Identities retained for live objects of the given kind. -/
def Retained (w : HandleWorld) (list : List Nat) (p : HandleOwner → Bool) : Prop :=
  list.Perm ((w.owners.filter fun owner => p owner && !owner.inRequest).map HandleOwner.identity)

structure Consistent (w : HandleWorld) : Prop where
  identities : (w.owners.map HandleOwner.identity).Nodup
  epochs : ∀ owner ∈ w.owners, owner.epoch ≤ w.epoch
  handles : (w.current.map HandleOwner.handle ++ w.state.released).Nodup
  numbered : ∀ handle ∈ w.current.map HandleOwner.handle ++ w.state.released,
    0 < handle ∧ handle < w.state.next
  stale : w.Retained w.state.stale (·.epoch < w.epoch)
  beforeRequest : w.Retained w.state.beforeRequest (·.epoch = w.epoch)

theorem owner_eq_of_identity {w : HandleWorld}
    (h : (w.owners.map HandleOwner.identity).Nodup) (ha : a ∈ w.owners) (hb : b ∈ w.owners)
    (he : a.identity = b.identity) : a = b :=
  List.inj_on_of_nodup_map h ha hb he

theorem Retained.mem_iff {w : HandleWorld} (h : w.Retained list p)
    (hnd : (w.owners.map HandleOwner.identity).Nodup) (ho : owner ∈ w.owners) :
    owner.identity ∈ list ↔ p owner = true ∧ owner.inRequest = false := by
  rw [List.Perm.mem_iff h, List.mem_map]
  constructor
  · rintro ⟨o, hmem, he⟩
    obtain ⟨hin, hp⟩ := List.mem_filter.1 hmem
    obtain rfl := owner_eq_of_identity hnd hin ho he
    simpa using hp
  · intro hp
    exact ⟨owner, List.mem_filter.2 ⟨ho, by simpa using hp⟩, rfl⟩

/-- Dropping an owner drops its identity from a retained list that has it. -/
theorem Retained.erase {w : HandleWorld} (h : w.Retained list p)
    (hnd : (w.owners.map HandleOwner.identity).Nodup) (ho : owner ∈ w.owners)
    (state : ObjectHandleState) :
    Retained ⟨state, w.owners.erase owner, w.epoch⟩ (list.erase owner.identity) p := by
  have hperm := ((List.perm_cons_erase ho).filter fun o => p o && !o.inRequest).map
    HandleOwner.identity
  have hall := List.Perm.trans h hperm
  unfold Retained
  cases hp : p owner && !owner.inRequest with
  | true =>
    rw [List.filter_cons_of_pos (by exact hp), List.map_cons] at hall
    have hmem : owner.identity ∈ list := hall.mem_iff.2 (by simp)
    exact List.perm_cons owner.identity |>.1 ((List.perm_cons_erase hmem).symm.trans hall)
  | false =>
    rw [List.filter_cons_of_neg (by simp [hp])] at hall
    have hnot : owner.identity ∉ list := by
      rw [h.mem_iff hnd ho]
      simpa using hp
    rwa [List.erase_of_not_mem hnot]

theorem Consistent.init : Consistent .init := by
  constructor <;> simp [HandleWorld.init, current, Retained, ObjectHandleState.default]

theorem Consistent.create {w w' : HandleWorld} (h : w.Consistent)
    (hs : w.step (.create identity) = some w') : w'.Consistent := by
  simp only [step] at hs
  split at hs
  · cases hs
  · rename_i hfresh
    obtain ⟨⟨handle, state⟩, ha, rfl⟩ := Option.map_eq_some_iff.1 hs
    obtain ⟨⟨hstale, hbefore, hin⟩, hcase⟩ := ObjectHandleState.allocate_eq_some ha
    have hreg : (state.registerIdentity identity).stale = w.state.stale ∧
        (state.registerIdentity identity).released = state.released ∧
        (state.registerIdentity identity).next = state.next := by
      unfold ObjectHandleState.registerIdentity
      split <;> exact ⟨hstale, rfl, rfl⟩
    have hperm : (handle :: (w.current.map HandleOwner.handle ++ state.released)).Nodup ∧
        ∀ k ∈ handle :: (w.current.map HandleOwner.handle ++ state.released),
          0 < k ∧ k < state.next := by
      rcases hcase with ⟨hrel, hnext⟩ | ⟨hrel, hrel', hhandle, hnext⟩
      · have hp : (handle :: (w.current.map HandleOwner.handle ++ state.released)).Perm
            (w.current.map HandleOwner.handle ++ w.state.released) := by
          rw [hrel, ← List.append_assoc]
          exact (List.perm_append_singleton _ _).symm
        refine ⟨hp.nodup_iff.2 h.handles, fun k hk => ?_⟩
        rw [hnext]
        exact h.numbered k (hp.mem_iff.1 hk)
      · have hold := h.handles
        have hnum := h.numbered
        rw [hrel] at hold hnum
        rw [hrel']
        have hlt : ∀ k ∈ w.current.map HandleOwner.handle ++ [], 0 < k ∧ k < handle := by
          intro k hk
          have := hnum k hk
          rw [hhandle]
          split <;> omega
        refine ⟨List.nodup_cons.2 ⟨fun hk => ?_, hold⟩, fun k hk => ?_⟩
        · exact absurd (hlt handle hk).2 (lt_irrefl _)
        · rw [hnext]
          rcases List.mem_cons.1 hk with rfl | hk
          · exact ⟨by rw [hhandle]; split <;> omega, by omega⟩
          · have := hlt k hk
            omega
    constructor
    · exact List.nodup_cons.2 ⟨hfresh, h.identities⟩
    · intro owner ho
      rcases List.mem_cons.1 ho with rfl | ho
      · exact le_refl _
      · exact h.epochs owner ho
    · simp only [current, List.filter_cons, decide_true, ↓reduceIte, List.map_cons, hreg.2.1]
      exact hperm.1
    · simp only [current, List.filter_cons, decide_true, ↓reduceIte, List.map_cons, hreg.2.1,
        hreg.2.2]
      exact hperm.2
    · simp only [Retained, hreg.1, List.filter_cons, lt_irrefl, decide_false, Bool.false_and,
        Bool.false_eq_true, ↓reduceIte]
      exact h.stale
    · have hb := h.beforeRequest
      unfold Retained at hb ⊢
      unfold ObjectHandleState.registerIdentity
      cases hreq : state.inRequest with
      | true => simpa [hreq, hbefore] using hb
      | false =>
        simp only [Bool.false_eq_true, ↓reduceIte, hbefore, List.filter_cons, decide_true,
          Bool.not_false, Bool.and_self, List.map_cons]
        exact (List.perm_append_singleton _ _).trans (hb.cons identity)

theorem Consistent.release {w w' : HandleWorld} (h : w.Consistent)
    (hl : w.RequestLocal (.release identity)) (hs : w.step (.release identity) = some w') :
    w'.Consistent := by
  obtain ⟨owner, hfind, rfl⟩ := Option.map_eq_some_iff.1 hs
  have ho : owner ∈ w.owners := List.mem_of_find?_eq_some hfind
  have hid : owner.identity = identity := by simpa using List.find?_some hfind
  have hst := h.stale.mem_iff h.identities ho
  have hbe := h.beforeRequest.mem_iff h.identities ho
  have hle := h.epochs owner ho
  simp only [decide_eq_true_eq] at hst hbe
  have hcur : w.current.Perm
      (if owner.epoch = w.epoch then owner :: (w.owners.erase owner).filter (·.epoch = w.epoch)
        else (w.owners.erase owner).filter (·.epoch = w.epoch)) := by
    have := (List.perm_cons_erase ho).filter (·.epoch = w.epoch)
    by_cases he : owner.epoch = w.epoch
    · simpa [current, he] using this
    · simpa [current, he] using this
  have hrel : (w.state.release owner.identity owner.handle).stale =
        w.state.stale.erase owner.identity ∧
      (w.state.release owner.identity owner.handle).beforeRequest.Perm
        (w.state.beforeRequest.erase owner.identity) ∧
      (w.state.release owner.identity owner.handle).next = w.state.next ∧
      (((w.owners.erase owner).filter (·.epoch = w.epoch)).map HandleOwner.handle ++
        (w.state.release owner.identity owner.handle).released).Perm
        (w.current.map HandleOwner.handle ++ w.state.released) := by
    by_cases he : owner.epoch = w.epoch
    · have hnot : owner.identity ∉ w.state.stale := by
        rw [hst]
        omega
      obtain ⟨h1, h2, h3, h4⟩ := w.state.release_of_not_mem hnot owner.handle
      refine ⟨by rw [h1, List.erase_of_not_mem hnot], h2, h4, ?_⟩
      simp only [he, ↓reduceIte] at hcur
      rw [h3, ← List.append_assoc]
      refine (List.perm_append_singleton _ _).trans ?_
      exact ((hcur.map HandleOwner.handle).append_right w.state.released).symm
    · have hreq : owner.inRequest = false := by
        by_contra hr
        exact he (hl owner ho hid (by simpa using hr))
      have hin : owner.identity ∈ w.state.stale := by
        rw [hst]
        exact ⟨by omega, hreq⟩
      have hnot : owner.identity ∉ w.state.beforeRequest := by
        rw [hbe]
        exact fun hc => he hc.1
      obtain ⟨h1, h2, h3, h4⟩ := w.state.release_of_mem hin owner.handle
      refine ⟨h1, by rw [h2, List.erase_of_not_mem hnot], h4, ?_⟩
      simp only [he, ↓reduceIte] at hcur
      rw [h3]
      exact ((hcur.map HandleOwner.handle).append_right w.state.released).symm
  obtain ⟨h1, h2, h3, h4⟩ := hrel
  constructor
  · exact h.identities.sublist ((List.erase_sublist).map _)
  · exact fun o hm => h.epochs o (List.mem_of_mem_erase hm)
  · exact h4.nodup_iff.2 h.handles
  · intro k hk
    simp only [h3]
    exact h.numbered k (h4.mem_iff.1 hk)
  · simp only [h1]
    exact h.stale.erase h.identities ho _
  · exact h2.trans (h.beforeRequest.erase h.identities ho _)

theorem Consistent.beginRequest {w : HandleWorld} (h : w.Consistent) :
    Consistent { w with state := w.state.beginRequest, epoch := w.epoch + 1 } := by
  have hnone : w.owners.filter (·.epoch = w.epoch + 1) = [] := by
    refine List.filter_eq_nil_iff.2 fun owner ho => ?_
    have := h.epochs owner ho
    simp only [decide_eq_true_eq]
    omega
  constructor
  · exact h.identities
  · exact fun owner ho => Nat.le_succ_of_le (h.epochs owner ho)
  · simp [current, hnone, ObjectHandleState.beginRequest]
  · simp [current, hnone, ObjectHandleState.beginRequest]
  · refine (List.perm_insertionSort _ _).trans ((h.stale.append h.beforeRequest).trans ?_)
    rw [← List.map_append]
    refine List.Perm.map _ ?_
    have hsplit := List.filter_append_perm (fun owner => decide (owner.epoch < w.epoch))
      (w.owners.filter fun owner => decide (owner.epoch < w.epoch + 1) && !owner.inRequest)
    rw [List.filter_filter, List.filter_filter] at hsplit
    refine List.Perm.trans (List.Perm.of_eq ?_) hsplit
    congr 1
    · refine List.filter_congr fun owner _ => ?_
      by_cases hlt : owner.epoch < w.epoch
      · simp [hlt, Nat.lt_succ_of_lt hlt]
      · simp [hlt]
    · refine List.filter_congr fun owner ho => ?_
      have hle := h.epochs owner ho
      by_cases heq : owner.epoch = w.epoch
      · simp [heq]
      · have hlt : owner.epoch < w.epoch := by omega
        simp [heq, hlt]
  · have hnil : (w.owners.filter fun owner =>
        decide (owner.epoch = w.epoch + 1) && !owner.inRequest) = [] := by
      refine List.filter_eq_nil_iff.2 fun owner ho => ?_
      have := h.epochs owner ho
      simp only [Bool.and_eq_true, decide_eq_true_eq, not_and]
      omega
    simp only [Retained, ObjectHandleState.beginRequest, hnil, List.map_nil, List.Perm.refl]

theorem Consistent.step {w w' : HandleWorld} (h : w.Consistent) (hl : w.RequestLocal op)
    (hs : w.step op = some w') : w'.Consistent := by
  cases op with
  | create identity => exact h.create hs
  | release identity => exact h.release hl hs
  | beginRequest => cases hs; exact h.beginRequest
  | endRequest => cases hs; exact ⟨h.1, h.2, h.3, h.4, h.5, h.6⟩

/-- An object that outlives its request gives its old number to the next request, where another
object already has it. -/
theorem not_nodup_of_request_owner_released_later :
    ¬ ∀ (ops : List HandleOp) (w : HandleWorld), run HandleWorld.step .init ops = some w →
      (w.current.map HandleOwner.handle).Nodup := by
  intro h
  have hn := h [.beginRequest, .create 100, .endRequest, .beginRequest, .create 200, .release 100,
    .create 300] _ rfl
  exact absurd hn (by decide)

/-- Handles stay distinct in every run in which objects made inside a request are not released
after a later request has started. -/
theorem current_handles_nodup (ops : List HandleOp) (w : HandleWorld)
    (hl : Meets HandleWorld.step RequestLocal .init ops)
    (hr : run HandleWorld.step .init ops = some w) :
    (w.current.map HandleOwner.handle).Nodup := by
  have h : w.Consistent :=
    run_invariant (fun _ _ _ h hok hs => Consistent.step h hok hs) Consistent.init hl hr
  exact (List.nodup_append.1 h.handles).1

/-- An object made before the first request is released inside it; its number is not reused. -/
theorem current_handles_nodup_retained_owner :
    ∃ ops w, Meets HandleWorld.step RequestLocal .init ops ∧
      run HandleWorld.step .init ops = some w ∧
      w.current.map HandleOwner.handle = [2, 1] ∧
      (w.current.map HandleOwner.handle).Nodup := by
  have hl : Meets HandleWorld.step RequestLocal .init
      [.create 100, .beginRequest, .create 200, .release 100, .create 300] := by decide
  exact ⟨_, _, hl, rfl, by decide, current_handles_nodup _ _ hl rfl⟩

end HandleWorld

end Rphp.Value
