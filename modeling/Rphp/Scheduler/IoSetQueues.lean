import Rphp.Scheduler.IoSetInFlight

namespace Rphp.Scheduler
open Lib
set_option autoImplicit true

namespace IoSet

/-- The task whose connection is pending on a descriptor. -/
def connectTask (s : IoSet A) (descriptor : Nat) : Option Nat :=
  (s.connectWaiters.lookup descriptor).map ConnectWaiter.task

/-- No queue changes and no connection starts or ends. -/
structure Quiet (s t : IoSet A) : Prop where
  queue : ∀ d dir, t.queue d dir = s.queue d dir
  connects : ∀ d, t.connectTask d = s.connectTask d
  next : s.nextId ≤ t.nextId
  placed : s.Placed → t.Placed
  wake : ∀ p, t.inFlight.lookup resolverWakeTask = some p →
    s.inFlight.lookup resolverWakeTask = some p

theorem Quiet.refl (s : IoSet A) : Quiet s s :=
  ⟨fun _ _ => rfl, fun _ => rfl, le_refl _, id, fun _ => id⟩

theorem Quiet.trans {s t u : IoSet A} (h : Quiet s t) (h' : Quiet t u) : Quiet s u :=
  ⟨fun d dir => (h'.queue d dir).trans (h.queue d dir),
    fun d => (h'.connects d).trans (h.connects d), h.next.trans h'.next,
    fun hf => h'.placed (h.placed hf), fun p hp => h.wake p (h'.wake p hp)⟩

@[simp] theorem queue_insert (s : IoSet A) (descriptor : Nat) (state : DescriptorState) :
    queue { s with descriptors := s.descriptors.insert descriptor state } d dir =
      if d = descriptor then state.queue dir else s.queue d dir := by
  simp only [queue, lookup_insert_eq]
  by_cases hd : d = descriptor <;> simp [hd]

theorem queue_eq {s : IoSet A} (h : s.descriptors.lookup d = some state) :
    s.queue d dir = state.queue dir := by
  simp only [queue, h]

theorem Placed.queue {s : IoSet A} (h : s.Placed) (hd : s.nextId ≤ d) : s.queue d dir = [] := by
  unfold IoSet.queue
  split
  · rename_i state hl
    exact absurd (h.fresh d state hl) (by omega)
  · rfl

theorem Placed.quiet_insertNew {s : IoSet A} (h : s.Placed) (hm : s.nextId ≤ m) (hn : m < n)
    (kind : Descriptor) :
    Quiet s { s with nextId := n, descriptors := s.descriptors.insert m (.new kind) } where
  queue d dir := by
    by_cases hd : d = m
    · subst hd
      rw [h.queue hm]
      simp [IoSet.queue]
    · simp [IoSet.queue, hd]
  connects _ := rfl
  next := by
    change s.nextId ≤ n
    omega
  placed hp := hp.insertNew hm hn kind
  wake _ := id

theorem addNew_quiet {s : IoSet A} (h : s.Placed) (kind : Descriptor) : Quiet s (s.addNew kind) :=
  h.quiet_insertNew (le_refl _) (Nat.lt_succ_self _) kind

theorem register_quiet {s : IoSet A} (h : s.Placed) (kind : Descriptor) :
    Post (fun _ t => Quiet s t) (fun _ _ => True) (register kind s) :=
  (register_spec s kind).mono (fun _ _ ht => ht.2 ▸ addNew_quiet h kind) fun _ _ _ => trivial

theorem createPair_quiet {s : IoSet A} (h : s.Placed) :
    Post (fun _ t => Quiet s t) (fun _ _ => True) (createPair s) := by
  refine ((allocateId_spec s).mono (fun _ _ => id) fun _ _ _ => trivial).bind fun first t _ ht => ?_
  obtain ⟨rfl, rfl⟩ := ht
  refine ((allocateId_spec _).mono (fun _ _ => id) fun _ _ _ => trivial).bind
    fun second t _ ht => ?_
  obtain ⟨rfl, rfl⟩ := ht
  have hfirst := h.quiet_insertNew (n := s.nextId + 1) (le_refl _) (Nat.lt_succ_self _) (.stream .unix)
  exact hfirst.trans ((hfirst.placed h).quiet_insertNew (le_refl _) (Nat.lt_succ_self _) _)

theorem accept_quiet {s : IoSet A} (h : s.Placed) (listener : Nat) (present : Bool) :
    Post (fun _ t => Quiet s t) (fun _ _ => True) (accept listener present s) := by
  unfold accept
  split
  · trivial
  · split
    · split
      · exact Post.map (f := some) (register_quiet h (.stream .tcp))
      · exact Quiet.refl s
    · trivial

theorem acknowledgeReady_quiet (s : IoSet A) (task : Nat) : Post
    (fun _ t => Quiet s t ∧ t.inFlight.lookup task = none ∧ t.connectWaiters = s.connectWaiters)
    (fun _ _ => True) (acknowledgeReady task s) := by
  unfold acknowledgeReady
  split
  · exact ⟨Quiet.refl s, by assumption, rfl⟩
  · rename_i d dir ht
    cases hd : s.descriptors.lookup d with
    | none => simp only [hd, post_error]
    | some state =>
      simp only [hd]
      split
      · refine ⟨⟨fun d' dir' => ?_, fun _ => rfl, le_refl _, fun hp =>
            hp.replace hd (by cases dir <;> rfl) rfl rfl rfl, fun p hp => ?_⟩,
          AList.lookup_erase _ _, rfl⟩
        · by_cases hd' : d' = d
          · subst hd'
            simp [IoSet.queue, hd]
          · simp [IoSet.queue, hd']
        · rw [lookup_erase_eq] at hp
          split at hp
          · cases hp
          · exact hp
      · trivial

/-- One task more in one queue. -/
structure Enqueued (d task : Nat) (dir : IoDirection) (s t : IoSet A) : Prop where
  queue : ∀ d' dir', t.queue d' dir' =
    s.queue d' dir' ++ if d' = d ∧ dir' = dir then [task] else []
  connects : t.connectWaiters = s.connectWaiters
  next : t.nextId = s.nextId
  placed : s.Placed → t.Placed
  inFlight : t.inFlight = s.inFlight

theorem Enqueued.of_insert {s : IoSet A} (hd : s.descriptors.lookup d = some state) :
    Enqueued d task dir s { s with
      descriptors := s.descriptors.insert d (state.setQueue (state.queue dir ++ [task]) dir) } where
  queue d' dir' := by
    rw [queue_insert]
    by_cases hd' : d' = d
    · subst hd'
      rw [if_pos rfl, queue_eq hd]
      by_cases hdir : dir' = dir <;> simp [hdir]
    · simp [hd']
  connects := rfl
  next := rfl
  placed hp := hp.replace hd (by cases dir <;> rfl) rfl rfl rfl
  inFlight := rfl

theorem Enqueued.connectTask {s t : IoSet A} (h : Enqueued d task dir s t) (d' : Nat) :
    t.connectTask d' = s.connectTask d' := by
  simp only [IoSet.connectTask, h.connects]

theorem enqueueWaiter_enqueued (s : IoSet A) (d task : Nat) (dir : IoDirection) :
    Post (fun _ t => Enqueued d task dir s t) (fun _ _ => True) (enqueueWaiter d task dir s) := by
  unfold enqueueWaiter
  split
  · trivial
  · rename_i state hd
    exact Enqueued.of_insert hd

/-- The set once a connection is recorded as pending. -/
def withConnect (s : IoSet A) (d : Nat) (waiter : ConnectWaiter A) : IoSet A :=
  { s with connectWaiters := s.connectWaiters.insert d waiter }

theorem withConnect_connectTask (s : IoSet A) (d d' : Nat) (waiter : ConnectWaiter A) :
    (s.withConnect d waiter).connectTask d' =
      if d' = d then some waiter.task else s.connectTask d' := by
  simp only [connectTask, withConnect, lookup_insert_eq]
  by_cases hd : d' = d <;> simp [hd]

theorem enqueueTcpConnectWaiter_enqueued (s : IoSet A) (d : Nat) (waiter : ConnectWaiter A) : Post
    (fun _ t => s.connectTask d = none ∧
      Enqueued d waiter.task .writable (s.withConnect d waiter) t)
    (fun _ _ => True) (enqueueTcpConnectWaiter d waiter s) := by
  unfold enqueueTcpConnectWaiter
  split
  · trivial
  · rename_i hnone
    refine (enqueueWaiter_enqueued _ d waiter.task .writable).mono (fun _ t ht => ⟨?_, ht⟩)
      fun _ _ => id
    simpa [connectTask] using hnone

theorem Placed.withConnect {s : IoSet A} (h : s.Placed) (hd : s.descriptors.lookup d = some state)
    (hk : state.descriptor = .stream .tcp) (waiter : ConnectWaiter A) :
    (s.withConnect d waiter).Placed where
  fresh := h.fresh
  connecting d' waiter' hw := by
    simp only [IoSet.withConnect, lookup_insert_eq] at hw
    split at hw
    · rename_i he
      exact ⟨state, he ▸ hd, hk⟩
    · exact h.connecting d' waiter' hw

/-- The wake entry is there afterwards, unless it is in flight. -/
theorem armResolverWake_enqueued (s : IoSet A) (d : Nat) : Post
    (fun _ t => t = s ∧ (resolverWakeTask ∈ s.queue d .readable ∨
        (s.inFlight.lookup resolverWakeTask).isSome) ∨
      Enqueued d resolverWakeTask .readable s t)
    (fun _ _ => True) (armResolverWake d s) := by
  unfold armResolverWake
  split
  · exact .inl ⟨rfl, .inr ‹_›⟩
  · split
    · trivial
    · rename_i state hd
      split
      · rename_i hmem
        exact .inl ⟨rfl, .inl (queue_eq hd ▸ hmem)⟩
      · exact .inr (Enqueued.of_insert hd)

/-- Collected events have left the queues they came from. -/
structure Polled (events : List IoReady) (s t : IoSet A) : Prop where
  queue : ∀ d dir u, (s.queue d dir).count u = (t.queue d dir).count u + events.count ⟨u, d, dir⟩
  connects : t.connectWaiters = s.connectWaiters
  next : t.nextId = s.nextId
  placed : s.Placed → t.Placed
  wake : ∀ p, t.inFlight.lookup resolverWakeTask = some p →
    s.inFlight.lookup resolverWakeTask = some p ∨ ∃ e ∈ events, e.task = resolverWakeTask

theorem Polled.refl (s : IoSet A) : Polled [] s s :=
  ⟨fun _ _ _ => rfl, rfl, rfl, id, fun _ => .inl⟩

theorem Polled.trans {s t u : IoSet A} (h : Polled e s t) (h' : Polled e' t u) :
    Polled (e ++ e') s u where
  queue d dir v := by
    rw [h.queue, h'.queue, List.count_append]
    omega
  connects := h'.connects.trans h.connects
  next := h'.next.trans h.next
  placed hp := h'.placed (h.placed hp)
  wake p hp := by
    rcases h'.wake p hp with hp | ⟨x, hx, ht⟩
    · rcases h.wake p hp with hp | ⟨x, hx, ht⟩
      · exact .inl hp
      · exact .inr ⟨x, List.mem_append_left _ hx, ht⟩
    · exact .inr ⟨x, List.mem_append_right _ hx, ht⟩

theorem Polled.mem {s t : IoSet A} (h : Polled events s t) (hu : u ∈ t.queue d dir) :
    u ∈ s.queue d dir := by
  have hpos := List.count_pos_iff.2 hu
  have := h.queue d dir u
  exact List.count_pos_iff.1 (by omega)

theorem takeReady_polled (s : IoSet A) (d : Nat) (dir : IoDirection) :
    Post (fun events t => Polled events s t) (fun _ _ => True) (takeReady d dir s) := by
  unfold takeReady
  split
  · trivial
  · rename_i state hd
    split
    · exact Polled.refl s
    · rename_i task rest hq
      split
      · trivial
      · split
        · trivial
        · refine ⟨fun d' dir' u => ?_, rfl, rfl, fun hp => hp.replace hd (by cases dir <;> rfl)
            rfl rfl rfl, fun p hp => ?_⟩
          · by_cases hd' : d' = d
            · subst hd'
              by_cases hdir : dir' = dir
              · subst hdir
                rw [queue_eq hd, hq]
                by_cases hu : u = task
                · simp [IoSet.queue, hu]
                · have hu' : task ≠ u := fun he => hu he.symm
                  simp [IoSet.queue, hu']
              · rw [queue_eq hd]
                have hne : dir ≠ dir' := fun he => hdir he.symm
                simp [IoSet.queue, hdir, hne]
            · have hne : d ≠ d' := fun he => hd' he.symm
              simp [IoSet.queue, hd', hne]
          · rw [lookup_insert_eq] at hp
            split at hp
            · rename_i he
              exact .inr ⟨_, List.mem_singleton_self _, he.symm⟩
            · exact .inl hp

theorem takeReported_polled (s : IoSet A) (revents : Revents) (d : Nat) (dir : IoDirection) :
    Post (fun events t => Polled events s t) (fun _ _ => True) (takeReported revents d dir s) := by
  unfold takeReported
  split
  · exact takeReady_polled s d dir
  · exact Polled.refl s

theorem collectReady_polled (s : IoSet A) (revents : Nat → Revents) (ds : List Nat) :
    Post (fun events t => Polled events s t) (fun _ _ => True) (collectReady revents ds s) := by
  induction ds generalizing s with
  | nil => exact Polled.refl s
  | cons d ds ih =>
    refine (takeReported_polled s _ d .readable).bind fun readers t _ hr => ?_
    refine (takeReported_polled t _ d .writable).bind fun writers u _ hw => ?_
    exact (ih u).bind fun later v _ hl => (hr.trans hw).trans hl

theorem pollReady_polled (s : IoSet A) (answer : PollAnswer) :
    Post (fun events t => Polled events s t) (fun _ _ => True) (pollReady answer s) := by
  unfold pollReady
  split
  · exact Polled.refl s
  · split
    · exact Polled.refl s
    · trivial
    · exact collectReady_polled s _ _

/-- The connection on a descriptor is no longer pending. -/
structure Ended (d : Nat) (s t : IoSet A) : Prop where
  connects : ∀ d', t.connectTask d' = if d' = d then none else s.connectTask d'
  next : t.nextId = s.nextId
  placed : s.Placed → t.Placed
  wake : ∀ p, t.inFlight.lookup resolverWakeTask = some p →
    s.inFlight.lookup resolverWakeTask = some p

theorem connectTask_erase (s : IoSet A) (d d' : Nat) :
    Option.map ConnectWaiter.task ((s.connectWaiters.erase d).lookup d') =
      if d' = d then none else s.connectTask d' := by
  rw [lookup_erase_eq]
  split <;> rfl

theorem Ended.release (s : IoSet A) (d : Nat) :
    Ended d s { s with connectWaiters := s.connectWaiters.erase d } where
  connects := s.connectTask_erase d
  next := rfl
  placed hp := by
    refine ⟨hp.fresh, fun d' waiter hw => ?_⟩
    rw [lookup_erase_eq] at hw
    split at hw
    · cases hw
    · exact hp.connecting d' waiter hw
  wake _ := id

theorem cancelTcpConnect_ended (s : IoSet A) (d task : Nat) : Post
    (fun _ t => Ended d s t ∧ ∀ d' dir, t.queue d' dir = if d' = d then [] else s.queue d' dir)
    (fun _ _ => True) (cancelTcpConnect d task s) := by
  unfold cancelTcpConnect
  split
  · refine ⟨⟨s.connectTask_erase d, rfl, fun hp => ⟨fun d' state hl => ?_, fun d' waiter hw => ?_⟩,
      fun p hp => ?_⟩, fun d' dir => ?_⟩
    · rw [lookup_erase_eq] at hl
      split at hl
      · cases hl
      · exact hp.fresh d' state hl
    · rw [lookup_erase_eq] at hw
      split at hw
      · cases hw
      · rename_i hd'
        simpa only [lookup_erase_eq, if_neg hd'] using hp.connecting d' waiter hw
    · rw [lookup_erase_eq] at hp
      split at hp
      · cases hp
      · exact hp
    · simp only [queue, lookup_erase_eq]
      by_cases hd' : d' = d <;> simp [hd']
  · trivial

/-- What a completion does to the connection and to the queues. -/
def Completes (d task : Nat) (probe : ConnectProbe) (s t : IoSet A) : ConnectCompletion A → Prop
  | .connected _ => Ended d s t ∧ t.queue = s.queue
  | .pending => ∃ u, Quiet s u ∧ Enqueued d task .writable u t
  | .failed waiter _ => waiter.task = task ∧ (∃ operation error, probe = .failed operation error) ∧
    Ended d s t ∧ ∀ d' dir, t.queue d' dir = if d' = d then [] else s.queue d' dir

theorem completeTcpConnect_completes {s : IoSet A} (hp : s.Placed) (d task : Nat)
    (probe : ConnectProbe) : Post
    (fun completion t => s.connectTask d = some task ∧ Completes d task probe s t completion)
    (fun _ _ => True) (completeTcpConnect d task probe s) := by
  refine ((connectWaiter_spec s d task).mono (fun _ _ => id) fun _ _ _ => trivial).bind
    fun waiter t _ ht => ?_
  obtain ⟨rfl, hw, htask⟩ := ht
  have hconn : t.connectTask d = some task := by simp [connectTask, hw, htask]
  refine Post.get_bind ?_
  rw [finishTcpConnection_eq hp hw]
  cases probe with
  | connected => exact ⟨hconn, Ended.release t d, rfl⟩
  | pending =>
    refine (acknowledgeReady_quiet t task).bind fun _ u _ hu => ?_
    exact (enqueueWaiter_enqueued u d task .writable).bind fun _ v _ hv => ⟨hconn, u, hu.1, hv⟩
  | failed operation error =>
    exact (cancelTcpConnect_ended t d task).bind fun _ u _ hu =>
      ⟨hconn, htask, ⟨operation, error, rfl⟩, hu⟩

end IoSet

end Rphp.Scheduler
