import Rphp.Scheduler.IoSet
import Rphp.Lib.Outcome
import Rphp.Lib.Run

namespace Rphp.Scheduler
open Lib
set_option autoImplicit true

namespace IoSet

def queue (s : IoSet A) (descriptor : Nat) (direction : IoDirection) : List Nat :=
  match s.descriptors.lookup descriptor with
  | some state => state.queue direction
  | none => []

def flag (s : IoSet A) (descriptor : Nat) (direction : IoDirection) : Bool :=
  match s.descriptors.lookup descriptor with
  | some state => state.inFlight direction
  | none => false

/-- Identifiers are handed out in order, and a pending connection has its socket. -/
structure Placed (s : IoSet A) : Prop where
  fresh : ∀ d state, s.descriptors.lookup d = some state → d < s.nextId
  connecting : ∀ d waiter, s.connectWaiters.lookup d = some waiter →
    ∃ state, s.descriptors.lookup d = some state ∧ state.descriptor = .stream .tcp

/-- Every flag has its one record and every record its flag. -/
structure InFlightExact (s : IoSet A) : Prop extends Placed s where
  recorded : ∀ d dir, s.flag d dir = true ↔ ∃ t, s.inFlight.lookup t = some (d, dir)
  unique : ∀ t t' p, s.inFlight.lookup t = some p → s.inFlight.lookup t' = some p → t = t'

theorem Placed.replace {s t : IoSet A} (h : s.Placed) (hd : s.descriptors.lookup d = some state)
    (hkind : state'.descriptor = state.descriptor) (hn : t.nextId = s.nextId)
    (hds : t.descriptors = s.descriptors.insert d state')
    (hws : t.connectWaiters = s.connectWaiters) : t.Placed where
  fresh d' state'' hl := by
    rw [hds, lookup_insert_eq] at hl
    rw [hn]
    split at hl
    · rename_i he
      exact he ▸ h.fresh d state hd
    · exact h.fresh d' state'' hl
  connecting d' waiter hw := by
    rw [hws] at hw
    obtain ⟨st, hst, hk⟩ := h.connecting d' waiter hw
    rw [hds]
    by_cases hd' : d' = d
    · subst hd'
      cases hd.symm.trans hst
      exact ⟨state', by simp, hkind.trans hk⟩
    · exact ⟨st, by simp [hd', hst], hk⟩

theorem Placed.insertNew {s : IoSet A} {m n : Nat} (h : s.Placed) (hm : s.nextId ≤ m) (hn : m < n)
    (kind : Descriptor) :
    Placed { s with nextId := n, descriptors := s.descriptors.insert m (.new kind) } where
  fresh d state hl := by
    rw [lookup_insert_eq] at hl
    change d < n
    split at hl
    · omega
    · have := h.fresh d state hl
      omega
  connecting d waiter hw := by
    obtain ⟨state, hst, hk⟩ := h.connecting d waiter hw
    have hd : d ≠ m := by
      intro he
      have := h.fresh d state hst
      omega
    exact ⟨state, by simp [hd, hst], hk⟩

theorem InFlightExact.registered {s : IoSet A} (h : s.InFlightExact)
    (ht : s.inFlight.lookup task = some (d, dir)) :
    ∃ state, s.descriptors.lookup d = some state ∧ state.inFlight dir = true := by
  have hflag := (h.recorded d dir).2 ⟨task, ht⟩
  unfold flag at hflag
  split at hflag
  · exact ⟨_, by assumption, hflag⟩
  · cases hflag

/-- The invariant holds after the call, whether it returned a value or an error. -/
abbrev Kept : EStateM.Result Abort (IoSet A) α → Prop :=
  Post (fun _ s => s.InFlightExact) fun e s => e ≠ .panicked ∧ s.InFlightExact

/-- A call of `poll` may also panic, which ends the run. -/
abbrev KeptOrPanicked : EStateM.Result Abort (IoSet A) α → Prop :=
  Post (fun _ s => s.InFlightExact) fun e s => e ≠ .panicked → s.InFlightExact

theorem InFlightExact.empty : ({} : IoSet A).InFlightExact where
  fresh d state hd := by simp at hd
  connecting d waiter hw := by simp at hw
  recorded d dir := by simp [flag]
  unique t t' p ht := by simp at ht

@[simp] theorem flag_insert (s : IoSet A) (descriptor : Nat) (state : DescriptorState) :
    flag { s with descriptors := s.descriptors.insert descriptor state } d dir =
      if d = descriptor then state.inFlight dir else s.flag d dir := by
  simp only [flag, lookup_insert_eq]
  by_cases hd : d = descriptor <;> simp [hd]

theorem flag_eq {s : IoSet A} (h : s.descriptors.lookup d = some state) :
    s.flag d dir = state.inFlight dir := by
  simp only [flag, h]

/-- Changing a registered descriptor apart from its kind and its flags is harmless. -/
theorem InFlightExact.replace {s : IoSet A} (h : s.InFlightExact)
    (hd : s.descriptors.lookup d = some state) (hkind : state'.descriptor = state.descriptor)
    (hflag : ∀ dir, state'.inFlight dir = state.inFlight dir) :
    InFlightExact { s with descriptors := s.descriptors.insert d state' } where
  recorded d' dir := by
    rw [flag_insert]
    by_cases hd' : d' = d
    · subst hd'
      rw [if_pos rfl, hflag, ← flag_eq hd]
      exact h.recorded d' dir
    · rw [if_neg hd']
      exact h.recorded d' dir
  unique := h.unique
  toPlaced := h.toPlaced.replace hd hkind rfl rfl rfl

/-- A descriptor under an unused identifier starts without flags. -/
theorem InFlightExact.insertNew {s : IoSet A} {m n : Nat} (h : s.InFlightExact)
    (hm : s.nextId ≤ m) (hn : m < n) (kind : Descriptor) :
    InFlightExact { s with
      nextId := n, descriptors := s.descriptors.insert m (.new kind) } where
  recorded d dir := by
    have hrec := h.recorded d dir
    have hnew : ∀ t, s.inFlight.lookup t = some (m, dir) → False := by
      intro t ht
      obtain ⟨state, hst, -⟩ := h.registered ht
      exact absurd (h.fresh m state hst) (by omega)
    simp only [flag, lookup_insert_eq] at hrec ⊢
    by_cases hd : d = m
    · subst hd
      simp only [if_pos, DescriptorState.new_inFlight]
      exact ⟨nofun, fun ⟨t, ht⟩ => (hnew t ht).elim⟩
    · simpa only [if_neg hd] using hrec
  unique := h.unique
  toPlaced := h.toPlaced.insertNew hm hn kind

theorem InFlightExact.bump {s : IoSet A} (h : s.InFlightExact) (hn : s.nextId ≤ n) :
    InFlightExact { s with nextId := n } :=
  ⟨⟨fun d state hd => (h.fresh d state hd).trans_le hn, h.connecting⟩, h.recorded, h.unique⟩

theorem allocateId_spec (s : IoSet A) : Post
    (fun id t => id = s.nextId ∧ t = { s with nextId := s.nextId + 1 })
    (fun e t => e ≠ .panicked ∧ t = s) (allocateId s) := by
  unfold allocateId
  split
  · exact ⟨nofun, rfl⟩
  · exact ⟨rfl, rfl⟩

/-- The set after a registration. -/
def addNew (s : IoSet A) (kind : Descriptor) : IoSet A :=
  { s with nextId := s.nextId + 1, descriptors := s.descriptors.insert s.nextId (.new kind) }

theorem register_spec (s : IoSet A) (kind : Descriptor) : Post
    (fun id t => id = s.nextId ∧ t = s.addNew kind)
    (fun e t => e ≠ .panicked ∧ t = s) (register kind s) := by
  refine (allocateId_spec s).bind fun id t _ h => ?_
  obtain ⟨rfl, rfl⟩ := h
  exact ⟨rfl, rfl⟩

theorem register_kept {s : IoSet A} (h : s.InFlightExact) (kind : Descriptor) :
    Kept (register kind s) :=
  (register_spec s kind).mono
    (fun _ _ ht => ht.2 ▸ h.insertNew (le_refl _) (Nat.lt_succ_self _) kind)
    fun _ _ ht => ⟨ht.1, ht.2 ▸ h⟩

theorem createPair_kept {s : IoSet A} (h : s.InFlightExact) : Kept (createPair s) := by
  refine ((allocateId_spec s).mono (fun _ _ => id) fun e t ht => ⟨ht.1, ht.2 ▸ h⟩).bind
    fun first t _ ht => ?_
  obtain ⟨rfl, rfl⟩ := ht
  refine ((allocateId_spec _).mono (fun _ _ => id) fun e t ht =>
    ⟨ht.1, ht.2 ▸ h.bump (Nat.le_succ _)⟩).bind fun second t _ ht => ?_
  obtain ⟨rfl, rfl⟩ := ht
  have hfirst := h.insertNew (n := s.nextId + 1) (le_refl _) (Nat.lt_succ_self _) (.stream .unix)
  exact hfirst.insertNew (le_refl _) (Nat.lt_succ_self _) (.stream .unix)

theorem accept_kept {s : IoSet A} (h : s.InFlightExact) (listener : Nat) (present : Bool) :
    Kept (accept listener present s) := by
  unfold accept
  split
  · exact ⟨nofun, h⟩
  · split
    · split
      · exact (register_kept h _).map
      · exact h
    · exact ⟨nofun, h⟩

theorem ensureWaitable_spec (s : IoSet A) (d : Nat) (dir : IoDirection) : Post
    (fun _ t => t = s ∧ ∃ state, s.descriptors.lookup d = some state)
    (fun e t => e ≠ .panicked ∧ t = s) (ensureWaitable d dir s) := by
  unfold ensureWaitable
  split
  · exact ⟨nofun, rfl⟩
  · rename_i state hd
    split
    · exact ⟨nofun, rfl⟩
    · exact ⟨rfl, state, hd⟩

theorem enqueueWaiter_kept {s : IoSet A} (h : s.InFlightExact)
    (hd : s.descriptors.lookup d = some state) : Kept (enqueueWaiter d task dir s) := by
  simp only [enqueueWaiter, hd]
  refine h.replace hd ?_ fun dir' => ?_
  · cases dir <;> rfl
  · simp

/-- Dropping a record together with its flag. -/
theorem InFlightExact.clear {s : IoSet A} (h : s.InFlightExact)
    (ht : s.inFlight.lookup task = some (d, dir)) (hd : s.descriptors.lookup d = some state) :
    InFlightExact { s with
      inFlight := s.inFlight.erase task
      descriptors := s.descriptors.insert d (state.setInFlight false dir) } where
  recorded d' dir' := by
    have hrec := h.recorded d' dir'
    simp only [lookup_erase_eq]
    by_cases hp : d' = d ∧ dir' = dir
    · obtain ⟨rfl, rfl⟩ := hp
      have hoff : flag { s with
          inFlight := s.inFlight.erase task
          descriptors := s.descriptors.insert d' (state.setInFlight false dir') } d' dir' =
          false := by
        simp [flag]
      rw [hoff]
      refine ⟨nofun, fun ⟨t, hl⟩ => ?_⟩
      split at hl
      · cases hl
      · rename_i hne
        exact absurd (h.unique t task _ hl ht) hne
    · have hsame : flag { s with
          inFlight := s.inFlight.erase task
          descriptors := s.descriptors.insert d (state.setInFlight false dir) } d' dir' =
          s.flag d' dir' := by
        by_cases hd' : d' = d
        · subst hd'
          have hdir : dir' ≠ dir := fun he => hp ⟨rfl, he⟩
          simp [flag, hd, hdir]
        · simp [flag, hd']
      rw [hsame, hrec]
      constructor
      · rintro ⟨t, hl⟩
        refine ⟨t, ?_⟩
        have hne : t ≠ task := by
          rintro rfl
          cases ht.symm.trans hl
          exact hp ⟨rfl, rfl⟩
        rw [if_neg hne, hl]
      · rintro ⟨t, hl⟩
        split at hl
        · cases hl
        · exact ⟨t, hl⟩
  unique t t' p hl hl' := by
    simp only [lookup_erase_eq] at hl hl'
    split at hl
    · cases hl
    · split at hl'
      · cases hl'
      · exact h.unique t t' p hl hl'
  toPlaced := h.toPlaced.replace hd (by cases dir <;> rfl) rfl rfl rfl

theorem acknowledgeReady_spec {s : IoSet A} (h : s.InFlightExact) (task : Nat) : Post
    (fun _ t => t.InFlightExact ∧ t.connectWaiters = s.connectWaiters ∧
      ∀ d state, s.descriptors.lookup d = some state →
        ∃ state', t.descriptors.lookup d = some state')
    (fun _ _ => False) (acknowledgeReady task s) := by
  unfold acknowledgeReady
  split
  · exact ⟨h, rfl, fun d state hd => ⟨state, hd⟩⟩
  · rename_i d dir ht
    obtain ⟨state, hd, hflag⟩ := h.registered ht
    simp only [hd, hflag, if_pos]
    refine ⟨h.clear ht hd, rfl, fun d' state' hd' => ?_⟩
    by_cases he : d' = d
    · exact ⟨state.setInFlight false dir, by rw [lookup_insert_eq, if_pos he]⟩
    · exact ⟨state', by simp [he, hd']⟩

theorem acknowledgeReady_kept {s : IoSet A} (h : s.InFlightExact) (task : Nat) :
    Kept (acknowledgeReady task s) :=
  (acknowledgeReady_spec h task).mono (fun _ _ ht => ht.1) fun _ _ => False.elim

/-- Setting a flag together with its record. -/
theorem InFlightExact.deliver {s : IoSet A} (h : s.InFlightExact)
    (hd : s.descriptors.lookup d = some state) (hoff : state.inFlight dir = false)
    (ht : s.inFlight.lookup task = none) (rest : List Nat) :
    InFlightExact { s with
      descriptors := s.descriptors.insert d ((state.setQueue rest dir).setInFlight true dir)
      inFlight := s.inFlight.insert task (d, dir) } where
  recorded d' dir' := by
    have hrec := h.recorded d' dir'
    simp only [lookup_insert_eq]
    by_cases hp : d' = d ∧ dir' = dir
    · obtain ⟨rfl, rfl⟩ := hp
      have hon : flag { s with
          descriptors :=
            s.descriptors.insert d' ((state.setQueue rest dir').setInFlight true dir')
          inFlight := s.inFlight.insert task (d', dir') } d' dir' = true := by
        simp [flag]
      rw [hon]
      exact ⟨fun _ => ⟨task, by simp⟩, fun _ => rfl⟩
    · have hsame : flag { s with
          descriptors := s.descriptors.insert d ((state.setQueue rest dir).setInFlight true dir)
          inFlight := s.inFlight.insert task (d, dir) } d' dir' = s.flag d' dir' := by
        by_cases hd' : d' = d
        · subst hd'
          have hdir : dir' ≠ dir := fun he => hp ⟨rfl, he⟩
          simp [flag, hd, hdir]
        · simp [flag, hd']
      rw [hsame, hrec]
      constructor
      · rintro ⟨t, hl⟩
        refine ⟨t, ?_⟩
        have hne : t ≠ task := by
          rintro rfl
          cases ht.symm.trans hl
        rw [if_neg hne, hl]
      · rintro ⟨t, hl⟩
        split at hl
        · cases hl
          exact absurd ⟨rfl, rfl⟩ hp
        · exact ⟨t, hl⟩
  unique t t' p hl hl' := by
    have hnew : ∀ t, s.inFlight.lookup t ≠ some (d, dir) := by
      intro t hl
      obtain ⟨st, hst, hon⟩ := h.registered hl
      cases hd.symm.trans hst
      rw [hoff] at hon
      cases hon
    simp only [lookup_insert_eq] at hl hl'
    split at hl <;> split at hl'
    · rename_i h1 h2
      exact h1.trans h2.symm
    · cases hl
      exact absurd hl' (hnew t')
    · cases hl'
      exact absurd hl (hnew t)
    · exact h.unique t t' p hl hl'
  toPlaced := h.toPlaced.replace hd (by cases dir <;> rfl) rfl rfl rfl

theorem takeReady_kept {s : IoSet A} (h : s.InFlightExact) (d : Nat) (dir : IoDirection) :
    KeptOrPanicked (takeReady d dir s) := by
  unfold takeReady
  split
  · exact fun hp => absurd rfl hp
  · rename_i state hd
    split
    · exact h
    · split
      · exact fun hp => absurd rfl hp
      · rename_i hoff
        split
        · exact fun hp => absurd rfl hp
        · rename_i hnone
          exact h.deliver hd (by simpa using hoff) (by simpa using hnone) _

theorem takeReported_kept {s : IoSet A} (h : s.InFlightExact) (revents : Revents) (d : Nat)
    (dir : IoDirection) : KeptOrPanicked (takeReported revents d dir s) := by
  unfold takeReported
  split
  · exact takeReady_kept h d dir
  · exact h

theorem collectReady_kept {s : IoSet A} (h : s.InFlightExact) (revents : Nat → Revents)
    (ds : List Nat) : KeptOrPanicked (collectReady revents ds s) := by
  induction ds generalizing s with
  | nil => exact h
  | cons d ds ih =>
    refine (takeReported_kept h _ d .readable).bind fun _ t _ ht => ?_
    refine (takeReported_kept ht _ d .writable).bind fun _ t _ ht => ?_
    exact (ih ht).bind fun _ t _ ht => ht

theorem pollReady_kept {s : IoSet A} (h : s.InFlightExact) (answer : PollAnswer) :
    KeptOrPanicked (pollReady answer s) := by
  unfold pollReady
  split
  · exact h
  · split
    · exact h
    · exact fun _ => h
    · exact collectReady_kept h _ _

/-- The task's own records are those on its descriptor. -/
def EndsAlone (s : IoSet A) (descriptor task : Nat) : Prop :=
  ∀ e ∈ s.inFlight.entries, e.2.1 = descriptor ↔ e.1 = task

instance (s : IoSet A) (descriptor task : Nat) : Decidable (s.EndsAlone descriptor task) :=
  inferInstanceAs (Decidable (∀ e ∈ s.inFlight.entries, e.2.1 = descriptor ↔ e.1 = task))

theorem EndsAlone.iff {s : IoSet A} (h : s.EndsAlone d task)
    (ht : s.inFlight.lookup t = some p) : p.1 = d ↔ t = task :=
  h ⟨t, p⟩ (AList.mem_lookup_iff.1 ht)

/-- Whoever ends a connection owns its continuation. -/
def OwnsConnect (s : IoSet A) (descriptor task : Nat) : Prop :=
  ∀ waiter ∈ s.connectWaiters.lookup descriptor, waiter.task = task

instance (s : IoSet A) (descriptor task : Nat) : Decidable (s.OwnsConnect descriptor task) :=
  inferInstanceAs (Decidable (∀ waiter ∈ s.connectWaiters.lookup descriptor, waiter.task = task))

theorem cancelTcpConnect_kept {s : IoSet A} (h : s.InFlightExact) (hown : s.OwnsConnect d task)
    (halone : s.EndsAlone d task) : Kept (cancelTcpConnect d task s) := by
  have hall : ((s.connectWaiters.lookup d).all fun waiter => waiter.task = task) = true := by
    cases hw : s.connectWaiters.lookup d with
    | none => rfl
    | some waiter => simpa using hown waiter hw
  rw [cancelTcpConnect, if_pos hall]
  exact
    { fresh := fun d' state hl => by
        rw [lookup_erase_eq] at hl
        split at hl
        · cases hl
        · exact h.fresh d' state hl
      connecting := fun d' waiter hw => by
        simp only [lookup_erase_eq] at hw ⊢
        split at hw
        · cases hw
        · rename_i hd'
          simpa only [if_neg hd'] using h.connecting d' waiter hw
      recorded := fun d' dir => by
        have hrec := h.recorded d' dir
        simp only [flag, lookup_erase_eq] at hrec ⊢
        by_cases hd' : d' = d
        · simp only [if_pos hd', Bool.false_eq_true, false_iff, not_exists]
          intro t hl
          split at hl
          · cases hl
          · rename_i hne
            exact hne ((halone.iff hl).1 hd')
        · simp only [if_neg hd', hrec]
          constructor
          · rintro ⟨t, hl⟩
            refine ⟨t, ?_⟩
            rw [if_neg fun he => hd' ((halone.iff hl).2 he), hl]
          · rintro ⟨t, hl⟩
            split at hl
            · cases hl
            · exact ⟨t, hl⟩
      unique := fun t t' p hl hl' => by
        simp only [lookup_erase_eq] at hl hl'
        split at hl
        · cases hl
        · split at hl'
          · cases hl'
          · exact h.unique t t' p hl hl' }

theorem createTcpConnection_spec (s : IoSet A) (start : ConnectStart) : Post
    (fun outcome t => (outcome = .connected s.nextId ∨ outcome = .inProgress s.nextId) ∧
      t = s.addNew (.stream .tcp))
    (fun e t => e ≠ .panicked ∧ t = s) (createTcpConnection start s) := by
  cases start with
  | failed e => exact ⟨nofun, rfl⟩
  | connected =>
    exact ((register_spec s _).mono (fun _ _ ht => ⟨.inl (ht.1 ▸ rfl), ht.2⟩) fun _ _ => id).map
  | inProgress =>
    exact ((register_spec s _).mono (fun _ _ ht => ⟨.inr (ht.1 ▸ rfl), ht.2⟩) fun _ _ => id).map

theorem Placed.not_connecting {s : IoSet A} (h : s.Placed) :
    s.connectWaiters.lookup s.nextId = none := by
  cases hw : s.connectWaiters.lookup s.nextId with
  | none => rfl
  | some waiter =>
    obtain ⟨state, hd, -⟩ := h.connecting _ waiter hw
    exact absurd (h.fresh _ state hd) (Nat.lt_irrefl _)

theorem enqueueTcpConnectWaiter_kept {s : IoSet A} (h : s.InFlightExact)
    (hnone : s.connectWaiters.lookup d = none) (hd : s.descriptors.lookup d = some state)
    (hkind : state.descriptor = .stream .tcp) (waiter : ConnectWaiter A) :
    Kept (enqueueTcpConnectWaiter d waiter s) := by
  rw [enqueueTcpConnectWaiter, if_neg (by simp [hnone])]
  have hins : InFlightExact { s with connectWaiters := s.connectWaiters.insert d waiter } := by
    refine ⟨⟨h.fresh, fun d' waiter' hw => ?_⟩, h.recorded, h.unique⟩
    rw [lookup_insert_eq] at hw
    split at hw
    · rename_i he
      exact ⟨state, he ▸ hd, hkind⟩
    · exact h.connecting d' waiter' hw
  exact enqueueWaiter_kept hins hd

theorem connectWaiter_spec (s : IoSet A) (d task : Nat) : Post
    (fun waiter t => t = s ∧ s.connectWaiters.lookup d = some waiter ∧ waiter.task = task)
    (fun e t => e ≠ .panicked ∧ t = s) (connectWaiter d task s) := by
  unfold connectWaiter
  split
  · exact ⟨nofun, rfl⟩
  · rename_i waiter hw
    split
    · rename_i ht
      exact ⟨rfl, hw, ht⟩
    · exact ⟨nofun, rfl⟩

/-- A pending connection fails only through its socket. -/
theorem finishTcpConnection_eq {s : IoSet A} (h : s.Placed)
    (hw : s.connectWaiters.lookup d = some waiter) (probe : ConnectProbe) :
    s.finishTcpConnection d probe =
      match probe with
      | .connected => .ok true
      | .pending => .ok false
      | .failed operation error => .error (osError operation error) := by
  obtain ⟨state, hd, hk⟩ := h.connecting d waiter hw
  cases probe with
  | connected => simp [finishTcpConnection, hd, hk]
  | pending => simp [finishTcpConnection, hd, hk]
  | failed operation error => simp [finishTcpConnection, hd, hk]

theorem completeTcpConnect_kept {s : IoSet A} (h : s.InFlightExact) (probe : ConnectProbe)
    (halone : ∀ operation error, probe = .failed operation error →
      ∀ waiter ∈ s.connectWaiters.lookup d, waiter.task = task → s.EndsAlone d task) :
    Kept (completeTcpConnect d task probe s) := by
  refine ((connectWaiter_spec s d task).mono (fun _ _ => id) fun e t ht => ⟨ht.1, ht.2 ▸ h⟩).bind
    fun waiter t _ ht => ?_
  obtain ⟨rfl, hw, htask⟩ := ht
  refine Post.bind (R := fun u v => u = t ∧ v = t) ⟨rfl, rfl⟩ fun u v _ huv => ?_
  obtain ⟨rfl, rfl⟩ := huv
  rw [finishTcpConnection_eq h.toPlaced hw]
  cases probe with
  | connected =>
    refine ⟨⟨h.fresh, fun d' waiter' hw' => ?_⟩, h.recorded, h.unique⟩
    simp only [lookup_erase_eq] at hw'
    split at hw'
    · cases hw'
    · exact h.connecting d' waiter' hw'
  | pending =>
    refine ((acknowledgeReady_spec h task).mono (fun _ _ => id) fun _ _ => False.elim).bind
      fun _ t _ ht => ?_
    obtain ⟨hexact, -, hkeep⟩ := ht
    obtain ⟨state, hd, -⟩ := h.connecting d waiter hw
    obtain ⟨state', hd'⟩ := hkeep d state hd
    exact (enqueueWaiter_kept hexact hd').bind fun _ t _ ht => ht
  | failed operation error =>
    have hown : v.OwnsConnect d task := by
      intro waiter' hw'
      cases hw.symm.trans hw'
      exact htask
    exact (cancelTcpConnect_kept h hown (halone operation error rfl waiter hw htask)).bind
      fun _ t _ ht => ht

end IoSet

/-- The calls a scheduler makes on its descriptors. -/
inductive IoCall (A : Type) where
  | createPair
  | createTcpListener
  | createUdpSocket
  | accept (listener : Nat) (present : Bool)
  | wait (descriptor task : Nat) (direction : IoDirection)
  | poll (answer : PollAnswer)
  | acknowledgeReady (task : Nat)
  | connect (start : ConnectStart) (waiter : ConnectWaiter A)
  | completeTcpConnect (descriptor task : Nat) (probe : ConnectProbe)
  | cancelTcpConnect (descriptor task : Nat)

namespace IoCall

def apply : IoCall A → EStateM Abort (IoSet A) Unit
  | createPair => do let _ ← IoSet.createPair
  | createTcpListener => do let _ ← IoSet.createTcpListener
  | createUdpSocket => do let _ ← IoSet.createUdpSocket
  | accept listener present => do let _ ← IoSet.accept listener present
  | wait descriptor task direction => do
    IoSet.ensureWaitable descriptor direction
    IoSet.enqueueWaiter descriptor task direction
  | poll answer => do let _ ← IoSet.pollReady answer
  | acknowledgeReady task => IoSet.acknowledgeReady task
  | connect start waiter => do
    match ← IoSet.createTcpConnection start with
    | .connected _ => pure ()
    | .inProgress descriptor => IoSet.enqueueTcpConnectWaiter descriptor waiter
  | completeTcpConnect descriptor task probe => do
    let _ ← IoSet.completeTcpConnect descriptor task probe
  | cancelTcpConnect descriptor task => IoSet.cancelTcpConnect descriptor task

/-- A run goes on after an error and ends in a panic. -/
def step (s : IoSet A) (call : IoCall A) : Option (IoSet A) :=
  match call.apply s with
  | .ok _ t => some t
  | .error (.error _) t => some t
  | .error .panicked _ => none

/-- A connection is given up by its own task, with no other task in flight on the descriptor. -/
def ConnectEndsAlone (s : IoSet A) : IoCall A → Prop
  | completeTcpConnect descriptor task (.failed _ _) =>
    ∀ waiter ∈ s.connectWaiters.lookup descriptor, waiter.task = task →
      s.EndsAlone descriptor task
  | cancelTcpConnect descriptor task =>
    s.OwnsConnect descriptor task ∧ s.EndsAlone descriptor task
  | _ => True

instance (s : IoSet A) (call : IoCall A) : Decidable (call.ConnectEndsAlone s) :=
  match call with
  | completeTcpConnect descriptor task (.failed _ _) =>
    inferInstanceAs (Decidable (∀ waiter ∈ s.connectWaiters.lookup descriptor,
      waiter.task = task → s.EndsAlone descriptor task))
  | cancelTcpConnect descriptor task =>
    inferInstanceAs (Decidable (s.OwnsConnect descriptor task ∧ s.EndsAlone descriptor task))
  | completeTcpConnect _ _ .connected | completeTcpConnect _ _ .pending
  | createPair | createTcpListener | createUdpSocket | accept _ _ | wait _ _ _ | poll _
  | acknowledgeReady _ | connect _ _ => .isTrue trivial

def IsPoll : IoCall A → Prop
  | poll _ => True
  | _ => False

theorem connect_kept {s : IoSet A} (h : s.InFlightExact) (start : ConnectStart)
    (waiter : ConnectWaiter A) : IoSet.Kept ((connect start waiter).apply s) := by
  have hadd : (s.addNew (.stream .tcp)).InFlightExact :=
    h.insertNew (le_refl _) (Nat.lt_succ_self _) _
  refine ((IoSet.createTcpConnection_spec s start).mono (fun _ _ => id) fun e t ht =>
    ⟨ht.1, ht.2 ▸ h⟩).bind fun outcome t _ ht => ?_
  obtain ⟨rfl | rfl, rfl⟩ := ht
  · exact hadd
  · exact IoSet.enqueueTcpConnectWaiter_kept hadd h.toPlaced.not_connecting
      (AList.lookup_insert _) rfl waiter

/-- Only a poll can panic. -/
theorem apply_kept {s : IoSet A} {call : IoCall A} (h : s.InFlightExact)
    (hok : call.ConnectEndsAlone s) :
    Post (fun _ t => t.InFlightExact)
      (fun e t => (e = .panicked → call.IsPoll) ∧ (e ≠ .panicked → t.InFlightExact))
      (call.apply s) := by
  have hkept : ∀ {α} {r : EStateM.Result Abort (IoSet A) α}, IoSet.Kept r →
      Post (fun _ t => t.InFlightExact)
        (fun e t => (e = .panicked → call.IsPoll) ∧ (e ≠ .panicked → t.InFlightExact)) r :=
    fun hr => hr.mono (fun _ _ => id) fun e t he => ⟨fun hp => absurd hp he.1, fun _ => he.2⟩
  cases call with
  | createPair => exact (hkept (IoSet.createPair_kept h)).bind fun _ _ _ => id
  | createTcpListener => exact (hkept (IoSet.register_kept h _)).bind fun _ _ _ => id
  | createUdpSocket => exact (hkept (IoSet.register_kept h _)).bind fun _ _ _ => id
  | accept listener present =>
    exact (hkept (IoSet.accept_kept h listener present)).bind fun _ _ _ => id
  | wait descriptor task direction =>
    refine ((IoSet.ensureWaitable_spec s descriptor direction).mono (fun _ _ => id)
      fun e t ht => ⟨fun hp => absurd hp ht.1, fun _ => ht.2 ▸ h⟩).bind fun _ t _ ht => ?_
    obtain ⟨rfl, state, hd⟩ := ht
    exact hkept (IoSet.enqueueWaiter_kept h hd)
  | poll answer =>
    exact ((IoSet.pollReady_kept h answer).mono (fun _ _ => id)
      fun e t ht => ⟨fun _ => trivial, ht⟩).bind fun _ _ _ => id
  | acknowledgeReady task => exact hkept (IoSet.acknowledgeReady_kept h task)
  | connect start waiter => exact hkept (connect_kept h start waiter)
  | completeTcpConnect descriptor task probe =>
    refine (hkept (IoSet.completeTcpConnect_kept h probe ?_)).bind fun _ _ _ => id
    rintro operation error rfl
    exact hok
  | cancelTcpConnect descriptor task =>
    exact hkept (IoSet.cancelTcpConnect_kept h hok.1 hok.2)

theorem step_kept {s t : IoSet A} {call : IoCall A} (h : s.InFlightExact)
    (hok : call.ConnectEndsAlone s) (hstep : call.step s = some t) : t.InFlightExact := by
  have happ := apply_kept h hok
  unfold step at hstep
  split at hstep
  · rename_i heq
    cases hstep
    rw [heq] at happ
    exact happ
  · rename_i heq
    cases hstep
    rw [heq] at happ
    exact happ.2 nofun
  · cases hstep

/-- While connections end alone, flags and records agree and no acknowledgement, completion or
cancellation panics. -/
theorem run_in_flight_exact {s : IoSet A} (calls : List (IoCall A))
    (hok : Meets step ConnectEndsAlone {} calls) (hrun : run step {} calls = some s) :
    (∀ d dir, s.flag d dir = true ↔ ∃! t, s.inFlight.lookup t = some (d, dir)) ∧
      (∀ t d dir, s.inFlight.lookup t = some (d, dir) →
        ∃ state, s.descriptors.lookup d = some state ∧ state.inFlight dir = true) ∧
      ∀ (call : IoCall A) t, call.ConnectEndsAlone s → call.apply s = .error .panicked t → call.IsPoll := by
  have h : s.InFlightExact :=
    run_invariant (fun _ _ _ hs hc ht => step_kept hs hc ht) IoSet.InFlightExact.empty hok hrun
  refine ⟨fun d dir => ?_, fun t d dir => h.registered, fun call t hcall hpanic => ?_⟩
  · rw [h.recorded]
    constructor
    · rintro ⟨t, ht⟩
      exact ⟨t, ht, fun t' ht' => h.unique t' t _ ht' ht⟩
    · rintro ⟨t, ht, -⟩
      exact ⟨t, ht⟩
  · have happ := apply_kept h hcall
    rw [hpanic] at happ
    exact happ.1 rfl

/-- A connection fails on descriptor 3 while another task is in flight on descriptor 1. -/
theorem run_in_flight_exact_other_descriptor :
    let calls : List (IoCall Unit) :=
      [.createPair, .wait 1 2 .readable, .connect .inProgress ⟨1, 0, 0, []⟩,
        .poll (.reported fun _ => { terminal := true }),
        .completeTcpConnect 3 1 (.failed "connect coroutine TCP stream" "refused")]
    (run step {} calls).isSome ∧ ∀ s, run step {} calls = some s →
      (∀ d dir, s.flag d dir = true ↔ ∃! t, s.inFlight.lookup t = some (d, dir)) ∧
        (∀ t d dir, s.inFlight.lookup t = some (d, dir) →
          ∃ state, s.descriptors.lookup d = some state ∧ state.inFlight dir = true) ∧
        ∀ (call : IoCall Unit) t, call.ConnectEndsAlone s →
          call.apply s = .error .panicked t → call.IsPoll :=
  ⟨by decide +kernel, fun _ hs => run_in_flight_exact _ (by decide) hs⟩

/-- A second task in flight on a connecting descriptor panics once the connection has failed. -/
theorem acknowledgeReady_panics_after_failed_connect :
    let calls : List (IoCall Unit) :=
      [.connect .inProgress ⟨1, 0, 0, [()]⟩, .wait 1 2 .readable,
        .poll (.reported fun _ => { terminal := true }),
        .completeTcpConnect 1 1 (.failed "connect coroutine TCP stream" "refused")]
    ∃ s, run step {} calls = some s ∧ s.inFlight.lookup 2 = some (1, .readable) ∧
      s.descriptors.lookup 1 = none ∧ step s (.acknowledgeReady 2) = none :=
  ⟨_, rfl, by decide, by decide, rfl⟩

/-- A terminal event reaches a second reader before the first has acknowledged its own. -/
example :
    run step ({} : IoSet Unit)
      [.createPair, .wait 1 1 .readable, .wait 1 2 .readable,
        .poll (.reported fun _ => { readable := true }), .wait 1 3 .writable,
        .poll (.reported fun _ => { terminal := true })] = none := rfl

end IoCall

end Rphp.Scheduler
