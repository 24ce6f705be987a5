import Rphp.Scheduler.Registrations

namespace Rphp.Scheduler
open Lib
set_option autoImplicit true

namespace ChannelSet

/-- How the outcome of a send shows in the waiting queues. -/
def SendMoves (set set' : ChannelSet V) (id task : Nat) : SendOutcome V → Prop
  | .complete => set'.senderTasks = set.senderTasks ∧ set'.receiverTasks = set.receiverTasks
  | .blocked =>
    (∀ k, set'.senderTasks k = set.senderTasks k ++ if k = id then [task] else []) ∧
      set'.receiverTasks = set.receiverTasks
  | .wakeReceiver waiter _ =>
    set'.senderTasks = set.senderTasks ∧
      ∀ k, set.receiverTasks k = (if k = id then [waiter.task] else []) ++ set'.receiverTasks k

theorem send_moves {set set' : ChannelSet V} {id : Nat}
    (h : set.send id task value = .ok (outcome, set')) : SendMoves set set' id task outcome := by
  obtain ⟨c, hc, rfl, hset⟩ := send_eq_ok h
  cases hr : c.receivers with
  | cons waiter receivers =>
    simp only [SendMoves, Channel.send, hr]
    refine ⟨funext fun k => ?_, fun k => ?_⟩
    · simp only [senderTasks, hset, Channel.send, hr]
      by_cases hk : k = id <;> simp [hk, hc]
    · simp only [receiverTasks, hset, Channel.send, hr]
      by_cases hk : k = id <;> simp [hk, hc, hr]
  | nil =>
    by_cases hlt : c.buffer.length < c.capacity
    · simp only [SendMoves, Channel.send, hr, hlt, if_true]
      refine ⟨funext fun k => ?_, funext fun k => ?_⟩
      · simp only [senderTasks, hset, Channel.send, hr, hlt, if_true]
        by_cases hk : k = id <;> simp [hk, hc]
      · simp only [receiverTasks, hset, Channel.send, hr, hlt, if_true]
        by_cases hk : k = id <;> simp [hk, hc, hr]
    · simp only [SendMoves, Channel.send, hr, hlt, if_false]
      refine ⟨fun k => ?_, funext fun k => ?_⟩
      · simp only [senderTasks, hset, Channel.send, hr, hlt, if_false]
        by_cases hk : k = id <;> simp [hk, hc]
      · simp only [receiverTasks, hset, Channel.send, hr, hlt, if_false]
        by_cases hk : k = id <;> simp [hk, hc, hr]

/-- How the outcome of a receive shows in the waiting queues. -/
def ReceiveMoves (set set' : ChannelSet V) (id task : Nat) : ReceiveOutcome V → Prop
  | .ready _ none => set'.senderTasks = set.senderTasks ∧ set'.receiverTasks = set.receiverTasks
  | .ready _ (some sender) =>
    (∀ k, set.senderTasks k = (if k = id then [sender] else []) ++ set'.senderTasks k) ∧
      set'.receiverTasks = set.receiverTasks
  | .blocked =>
    set'.senderTasks = set.senderTasks ∧
      ∀ k, set'.receiverTasks k = set.receiverTasks k ++ if k = id then [task] else []

theorem receive_moves {set set' : ChannelSet V} {id : Nat}
    (h : set.receive id waiter = .ok (outcome, set')) :
    ReceiveMoves set set' id waiter.task outcome := by
  obtain ⟨c, hc, rfl, hset⟩ := receive_eq_ok h
  cases hb : c.buffer with
  | cons value buffer =>
    cases hs : c.senders with
    | cons sender senders =>
      simp only [ReceiveMoves, Channel.receive, hb, hs]
      refine ⟨fun k => ?_, funext fun k => ?_⟩
      · simp only [senderTasks, hset, Channel.receive, hb, hs]
        by_cases hk : k = id <;> simp [hk, hc, hs]
      · simp only [receiverTasks, hset, Channel.receive, hb, hs]
        by_cases hk : k = id <;> simp [hk, hc]
    | nil =>
      simp only [ReceiveMoves, Channel.receive, hb, hs]
      refine ⟨funext fun k => ?_, funext fun k => ?_⟩
      · simp only [senderTasks, hset, Channel.receive, hb, hs]
        by_cases hk : k = id <;> simp [hk, hc, hs]
      · simp only [receiverTasks, hset, Channel.receive, hb, hs]
        by_cases hk : k = id <;> simp [hk, hc]
  | nil =>
    simp only [ReceiveMoves, Channel.receive, hb]
    refine ⟨funext fun k => ?_, fun k => ?_⟩
    · simp only [senderTasks, hset, Channel.receive, hb]
      by_cases hk : k = id <;> simp [hk, hc]
    · simp only [receiverTasks, hset, Channel.receive, hb]
      by_cases hk : k = id <;> simp [hk, hc]

theorem create_moves {set set' : ChannelSet V} {id : Nat}
    (h : set.create capacity = .ok (id, set')) :
    set'.senderTasks = set.senderTasks ∧ set'.receiverTasks = set.receiverTasks := by
  have hset := channel?_create h
  refine ⟨funext fun k => ?_, funext fun k => ?_⟩
  · simp only [senderTasks, (hset k).2.2]
    by_cases hk : k = id
    · simp [hk, (hset id).2.1, Channel.new]
    · simp [hk]
  · simp only [receiverTasks, (hset k).2.2]
    by_cases hk : k = id
    · simp [hk, (hset id).2.1, Channel.new]
    · simp [hk]

end ChannelSet

namespace CoroutineScheduler

/-- The state between two steps. -/
structure Sound (s : CoroutineScheduler V A) : Prop where
  tasks : s.Tasks none [] []
  wired : s.Wired (fun _ => False) []

/-- The two consistency checks on waiting tasks never fail. -/
abbrev Aborts (e : Halt) (_ : CoroutineScheduler V A) : Prop := ∃ a, e = .abort a

/-- A new task under the next identifier. -/
def spawned (s : CoroutineScheduler V A) : CoroutineScheduler V A :=
  { s with
    nextId := s.nextId + 1
    contexts := s.contexts ++ [{}]
    readiness := s.readiness.enqueue s.nextId }

theorem spawned_occurrences (s : CoroutineScheduler V A) (u : Nat) (p : Place) :
    s.spawned.occurrences due events u p =
      s.occurrences due events u p + if u = s.nextId ∧ p = .ready then 1 else 0 := by
  cases p with
  | ready =>
    by_cases hu : u = s.nextId
    · simp [occurrences, spawned, Readiness.enqueue, hu]
    · have hu' : s.nextId ≠ u := fun he => hu he.symm
      simp [occurrences, spawned, Readiness.enqueue, hu, hu']
  | _ => simp only [reduceCtorEq, and_false, if_false, Nat.add_zero]; rfl

theorem spawned_context? {s : CoroutineScheduler V A} (h : s.nextId = s.contexts.length + 1)
    (u : Nat) : s.spawned.context? u = if u = s.nextId then some {} else s.context? u := by
  unfold context? spawned
  by_cases hz : u = 0
  · simp [hz, h]
  · rw [if_neg hz, if_neg hz, List.getElem?_append]
    split
    · rw [if_neg (by omega)]
    · by_cases hu : u = s.nextId
      · simp [hu, h]
      · rw [if_neg hu, List.getElem?_eq_none (by simp; omega), List.getElem?_eq_none (by omega)]

theorem Tasks.spawned {s : CoroutineScheduler V A} (h : s.Tasks none due events)
    (hle : (s.nextId : Int) ≤ i64Max) : s.spawned.Tasks none due events := by
  have hids := h.ids
  have hctx := spawned_context? hids
  have hnone : s.context? s.nextId = none := by
    unfold context?
    split
    · rfl
    · exact List.getElem?_eq_none (by omega)
  refine ⟨by simp [CoroutineScheduler.spawned, hids], ?_, fun u => ?_, fun u c _ hc => ?_,
    fun u p _ hex => ?_⟩
  · simp only [CoroutineScheduler.spawned, List.length_append, List.length_singleton]
    omega
  · have hact := h.active u
    rw [hctx]
    by_cases hu : u = s.nextId
    · subst hu
      rw [hnone] at hact
      simpa [CoroutineScheduler.spawned] using hact
    · rw [if_neg hu]
      exact hact
  · rw [hctx] at hc
    by_cases hu : u = s.nextId
    · rw [if_pos hu] at hc
      cases hc
      exact ⟨nofun, nofun⟩
    · rw [if_neg hu] at hc
      exact h.waiting u c nofun hc
  · have hset := h.settled u p nofun hex
    rw [hctx, spawned_occurrences]
    by_cases hu : u = s.nextId
    · subst hu
      rw [hnone] at hset
      simp only [Expected] at hset
      simp [hset, Expected, CoroutineStatus.runnable]
    · simpa [hu] using hset

theorem spawn_sound {s : CoroutineScheduler V A} (h : s.Sound) :
    Post (fun _ t => t.Sound) Aborts (spawn s) := by
  unfold spawn
  split
  · exact ⟨_, rfl⟩
  · exact ⟨h.tasks.spawned (by omega),
      ⟨h.wired.placed, h.wired.apart, h.wired.alone, h.wired.awake⟩, h.wired.armed⟩

/-- Only the queues of the channels change. -/
theorem Wired.setChannels {s : CoroutineScheduler V A} (h : s.Wired failing events)
    (channels : ChannelSet V) : Wired failing events { s with channels := channels } :=
  ⟨⟨h.placed, h.apart, h.alone, h.awake⟩, h.armed⟩

theorem createChannel_sound {s : CoroutineScheduler V A} (h : s.Sound) (capacity : Nat) :
    Post (fun _ t => t.Sound) Aborts (createChannel capacity s) := by
  unfold createChannel
  split
  · rename_i id channels hcreate
    obtain ⟨hs, hr⟩ := ChannelSet.create_moves hcreate
    refine ⟨h.tasks.of_occurrences rfl rfl rfl fun u p _ _ => ?_, h.wired.setChannels _⟩
    cases p with
    | sender channel => simp only [occurrences, hs]
    | receiver channel => simp only [occurrences, hr]
    | _ => rfl
  · exact ⟨_, rfl⟩

theorem activeTask_post (s : CoroutineScheduler V A) (operation : String) :
    Post (fun t s' => s' = s ∧ s.active = some t) Aborts (activeTask operation s) := by
  unfold activeTask
  split
  · exact ⟨rfl, by assumption⟩
  · exact ⟨_, rfl⟩

/-- A reason whose place is the only registration it asks for. -/
def Plain : WaitReason → Prop
  | .tcpConnect _ => False
  | .dnsResolve _ => False
  | _ => True

theorem Plain.expects (h : Plain r) : r.Expects p n ↔ n = if p = r.place then 1 else 0 := by
  unfold WaitReason.Expects
  split
  · rfl
  · cases r <;> first | exact h.elim | (cases p <;> rfl)

/-- Taking a waiting task out of one place leaves a hole with a known reason. -/
theorem Tasks.take {s w : CoroutineScheduler V A} (h : s.Tasks none due events)
    (hnext : w.nextId = s.nextId) (hctx : w.contexts = s.contexts)
    (hactive : w.active = s.active) (hex : ¬Exempt t q) (hq : q ≠ .ready)
    (hocc : ∀ u p, ¬Exempt u p → s.occurrences due events u p =
      w.occurrences due' events' u p + if u = t ∧ p = q then 1 else 0) :
    w.Tasks (some t) due' events' ∧ ∃ r, w.context? t = some ⟨.waiting, some r⟩ ∧
      ∀ p, r.Expects p (w.occurrences due' events' t p + if p = q then 1 else 0) := by
  have hpos : 0 < s.occurrences due events t q := by
    rw [hocc t q hex, if_pos ⟨rfl, rfl⟩]
    omega
  obtain ⟨r, hc, hexp⟩ := h.reason nofun hex hq hpos
  refine ⟨(h.open t).of_occurrences hnext hctx hactive fun u p hu hex => ?_, r, ?_, fun p => ?_⟩
  · rw [hocc u p hex, if_neg fun he : u = t ∧ p = q => hu (he.1 ▸ rfl), Nat.add_zero]
  · simpa only [context?, hctx] using hc
  · have := hexp p
    rw [hocc t p fun he => h.not_wake hc he.1] at this
    simpa using this

/-- Waking a task that was taken out of the one place it was registered in. -/
theorem wakeTask_taken {s s' : CoroutineScheduler V A} (h : s.Tasks none due events)
    (hw : s'.Wired failing events') (hnext : s'.nextId = s.nextId)
    (hctx : s'.contexts = s.contexts) (hactive : s'.active = s.active) (hex : ¬Exempt t r.place)
    (hplain : Plain r) (honly : ∀ r' n, s.context? t = some ⟨.waiting, some r'⟩ →
      r'.Expects r.place (n + 1) → r' = r)
    (hocc : ∀ u p, ¬Exempt u p → s.occurrences due events u p =
      s'.occurrences due' events' u p + if u = t ∧ p = r.place then 1 else 0) :
    Post (fun _ t => t.Tasks none due' events' ∧ t.Wired failing events') Aborts
      (wakeTask t r s') := by
  have hq : r.place ≠ .ready := by cases r <;> nofun
  obtain ⟨hopen, r', hc, hexp⟩ := h.take hnext hctx hactive hex hq hocc
  have hr : r' = r := by
    refine honly r' _ ?_ (by simpa using hexp r.place)
    simpa only [context?, hctx] using hc
  subst hr
  rw [wakeTask_eq hc]
  refine ⟨hopen.wake hc rfl fun p => ?_, hw.woken t⟩
  have := hplain.expects.1 (hexp p)
  omega

theorem not_exempt (h : ∀ d, p ≠ .reader d) : ¬Exempt t p := by
  rintro ⟨-, d, hd⟩
  exact h d hd

theorem count_if_singleton (k id x u : Nat) :
    (if k = id then [x] else []).count u = if u = x ∧ k = id then 1 else 0 := by
  by_cases hk : k = id
  · by_cases hu : u = x
    · simp [hk, hu]
    · have hu' : x ≠ u := fun he => hu he.symm
      simp [hk, hu, hu']
  · simp [hk]

/-- The state of the task in the hole is free, as long as it does not start or stop running. -/
theorem Tasks.setHole {s : CoroutineScheduler V A} (h : s.Tasks (some t) due events)
    (hc : s.context? t = some c) (hrun : c'.status = .running ↔ c.status = .running) :
    (s.setContext t c').Tasks (some t) due events := by
  refine h.frame rfl (by simp) (fun u hu => ?_) (fun u => ?_) fun u p _ _ => by simp
  · rw [context?_setContext hc, if_neg fun he : u = t => hu (he ▸ rfl)]
  · have hact := h.active u
    rw [context?_setContext hc]
    by_cases hu : u = t
    · subst hu
      simpa [hc, setContext, hrun] using hact
    · rw [if_neg hu]
      exact hact

theorem Wired.setContext {s : CoroutineScheduler V A} (h : s.Wired failing events) (t : Nat)
    (c : CoroutineContext) : (s.setContext t c).Wired failing events :=
  ⟨⟨h.placed, h.apart, h.alone, h.awake⟩, h.armed⟩

/-- The running task on its way into a wait, with the registrations it has so far. -/
structure Parking (t : Nat) (r : Option WaitReason) (n : Place → Nat)
    (s : CoroutineScheduler V A) : Prop where
  tasks : s.Tasks (some t) [] []
  active : s.active = some t
  context : s.context? t = some ⟨.running, r⟩
  count : ∀ p, s.occurrences [] [] t p = n p

theorem Parking.start {s : CoroutineScheduler V A} (h : s.Tasks none [] [])
    (ha : s.active = some t) : s.Parking t none fun _ => 0 :=
  ⟨h.open t, ha, (h.running ha).1, (h.running ha).2⟩

/-- A change that registers the running task once more. -/
theorem Parking.register {s s' : CoroutineScheduler V A} (h : s.Parking t r n)
    (hnext : s'.nextId = s.nextId) (hctx : s'.contexts = s.contexts)
    (hactive : s'.active = s.active)
    (hocc : ∀ u p, ¬Exempt u p → s'.occurrences [] [] u p =
      s.occurrences [] [] u p + if u = t ∧ p = q then 1 else 0) :
    s'.Parking t r fun p => n p + if p = q then 1 else 0 where
  tasks := by
    refine h.tasks.of_occurrences hnext hctx hactive fun u p hu hex => ?_
    rw [hocc u p hex, if_neg fun he : u = t ∧ p = q => hu (he.1 ▸ rfl), Nat.add_zero]
  active := hactive.trans h.active
  context := by simpa only [context?, hctx] using h.context
  count p := by
    rw [hocc t p fun he => h.tasks.not_wake h.context he.1, h.count p]
    simp

/-- A change that concerns no task. -/
theorem Parking.same {s s' : CoroutineScheduler V A} (h : s.Parking t r n)
    (hnext : s'.nextId = s.nextId) (hctx : s'.contexts = s.contexts)
    (hactive : s'.active = s.active)
    (hocc : ∀ u p, ¬Exempt u p → s'.occurrences [] [] u p = s.occurrences [] [] u p) :
    s'.Parking t r n where
  tasks := h.tasks.of_occurrences hnext hctx hactive fun u p _ hex => hocc u p hex
  active := hactive.trans h.active
  context := by simpa only [context?, hctx] using h.context
  count p := by rw [hocc t p fun he => h.tasks.not_wake h.context he.1, h.count p]

theorem Parking.block {s : CoroutineScheduler V A} (h : s.Parking t none n) (r : WaitReason) :
    (s.setContext t ⟨.running, some r⟩).Parking t (some r) n :=
  ⟨h.tasks.setHole h.context Iff.rfl, h.active, by rw [context?_setContext h.context, if_pos rfl],
    fun p => by rw [setContext_occurrences, h.count]⟩

/-- The running task is registered as its reason asks and leaves the processor. -/
theorem Parking.suspend {s : CoroutineScheduler V A} (h : s.Parking t (some r) n)
    (hw : s.Wired (fun _ => False) []) (hn : ∀ p, r.Expects p (n p)) :
    Post (fun _ t => t.Sound) Aborts (suspendActive .waiting s) := by
  rw [suspendActive_eq h.active h.context]
  exact ⟨h.tasks.park h.active h.context fun p => h.count p ▸ hn p, hw.parked t r⟩

theorem Parking.blockTask {s : CoroutineScheduler V A} (h : s.Parking t none n)
    (hw : s.Wired (fun _ => False) []) (hn : ∀ p, r.Expects p (n p)) :
    Post (fun _ t => t.Sound) Aborts ((do
      blockTask t r
      suspendActive .waiting) s) :=
  Post.bind_ok (blockTask_eq h.context) ((h.block r).suspend (hw.setContext t _) hn)

section
variable {a b : ChannelSet V}

theorem occurrences_receiver (s : CoroutineScheduler V A) (hs : a.senderTasks = b.senderTasks)
    (hr : ∀ k, List.Perm (a.receiverTasks k)
      ((if k = channel then [x] else []) ++ b.receiverTasks k)) (u : Nat) (p : Place) :
    occurrences { s with channels := a } due events u p =
      occurrences { s with channels := b } due events u p +
        if u = x ∧ p = .receiver channel then 1 else 0 := by
  cases p with
  | sender k => simp [occurrences, hs]
  | receiver k =>
    simp only [occurrences, (hr k).count_eq, List.count_append, count_if_singleton,
      Place.receiver.injEq]
    omega
  | _ => simp only [reduceCtorEq, and_false, if_false, Nat.add_zero]; rfl

theorem occurrences_sender (s : CoroutineScheduler V A)
    (hs : ∀ k, List.Perm (a.senderTasks k)
      ((if k = channel then [x] else []) ++ b.senderTasks k))
    (hr : a.receiverTasks = b.receiverTasks) (u : Nat) (p : Place) :
    occurrences { s with channels := a } due events u p =
      occurrences { s with channels := b } due events u p +
        if u = x ∧ p = .sender channel then 1 else 0 := by
  cases p with
  | sender k =>
    simp only [occurrences, (hs k).count_eq, List.count_append, count_if_singleton,
      Place.sender.injEq]
    omega
  | receiver k => simp [occurrences, hr]
  | _ => simp only [reduceCtorEq, and_false, if_false, Nat.add_zero]; rfl

theorem occurrences_channels (s : CoroutineScheduler V A) (hs : a.senderTasks = b.senderTasks)
    (hr : a.receiverTasks = b.receiverTasks) (u : Nat) (p : Place) :
    occurrences { s with channels := a } due events u p =
      occurrences { s with channels := b } due events u p := by
  cases p with
  | sender k => simp only [occurrences, hs]
  | receiver k => simp only [occurrences, hr]
  | _ => rfl

end

theorem send_sound {s : CoroutineScheduler V A} (h : s.Sound) (channel : Nat) (value : V) :
    Post (fun _ t => t.Sound) Aborts (send channel value s) := by
  refine (activeTask_post s _).bind fun t s' _ ht => ?_
  obtain ⟨rfl, ha⟩ := ht
  refine Post.get_bind ?_
  cases hsend : s'.channels.send channel t value with
  | error e => exact ⟨_, rfl⟩
  | ok r =>
    obtain ⟨outcome, channels⟩ := r
    have hmoves := ChannelSet.send_moves hsend
    have hw := h.wired.setChannels channels
    refine Post.set_bind ?_
    cases outcome with
    | complete =>
      exact ⟨h.tasks.of_occurrences rfl rfl rfl fun u p _ _ =>
        occurrences_channels s' hmoves.1 hmoves.2 u p, hw⟩
    | blocked =>
      have hpark : Parking t none _ { s' with channels := channels } :=
        (Parking.start h.tasks ha).register rfl rfl rfl fun u p _ =>
          occurrences_sender s' (fun k => hmoves.1 k ▸ List.perm_append_comm) hmoves.2 u p
      refine hpark.blockTask hw fun p => ?_
      exact (Plain.expects (r := .channelSend channel) trivial).2 (Nat.zero_add _)
    | wakeReceiver waiter value =>
      refine (wakeTask_taken (r := .channelReceive channel) h.tasks hw rfl rfl rfl
        (not_exempt nofun) trivial ?_ fun u p _ => ?_).mono (fun _ t ht => ⟨ht.1, ht.2⟩)
        fun _ _ => id
      · intro r' n _ hr
        have := Expects.cases hr (Nat.succ_pos n)
        cases r' <;> simp_all [WaitReason.place]
      · exact occurrences_receiver s' hmoves.1.symm (fun k => by rw [hmoves.2 k]) u p

theorem receive_sound {s : CoroutineScheduler V A} (h : s.Sound)
    (channel frame returnValue : Nat) :
    Post (fun _ t => t.Sound) Aborts (receive channel frame returnValue s) := by
  refine (activeTask_post s _).bind fun t s' _ ht => ?_
  obtain ⟨rfl, ha⟩ := ht
  refine Post.get_bind ?_
  cases hrec : s'.channels.receive channel ⟨t, frame, returnValue⟩ with
  | error e => exact ⟨_, rfl⟩
  | ok r =>
    obtain ⟨outcome, channels⟩ := r
    have hmoves := ChannelSet.receive_moves hrec
    have hw := h.wired.setChannels channels
    refine Post.set_bind ?_
    cases outcome with
    | ready value wakeSender =>
      cases wakeSender with
      | none =>
        exact ⟨h.tasks.of_occurrences rfl rfl rfl fun u p _ _ =>
          occurrences_channels s' hmoves.1 hmoves.2 u p, hw⟩
      | some sender =>
        refine (wakeTask_taken (r := .channelSend channel) h.tasks hw rfl rfl rfl
          (not_exempt nofun) trivial ?_ fun u p _ => ?_).mono (fun _ t ht => ⟨ht.1, ht.2⟩)
          fun _ _ => id
        · intro r' n _ hr
          have := Expects.cases hr (Nat.succ_pos n)
          cases r' <;> simp_all [WaitReason.place]
        · exact occurrences_sender s' (fun k => by rw [hmoves.1 k]) hmoves.2.symm u p
    | blocked =>
      have hpark : Parking t none _ { s' with channels := channels } :=
        (Parking.start h.tasks ha).register rfl rfl rfl fun u p _ =>
          occurrences_receiver s' hmoves.1 (fun k => hmoves.2 k ▸ List.perm_append_comm) u p
      refine hpark.blockTask hw fun p => ?_
      exact (Plain.expects (r := .channelReceive channel) trivial).2 (Nat.zero_add _)

theorem onIo_post {s : CoroutineScheduler V A} {x : EStateM Abort (IoSet A) α}
    (h : Post R (fun _ _ => True) (x s.io)) (hQ : ∀ a io, R a io → Q a { s with io := io }) :
    Post Q Aborts (onIo x s) := by
  unfold onIo
  cases hx : x s.io with
  | ok a io =>
    rw [hx] at h
    exact hQ a io h
  | error e io => exact ⟨e, rfl⟩

theorem quiet_occurrences {s : CoroutineScheduler V A} {io : IoSet A} (h : IoSet.Quiet s.io io) (u : Nat)
    (p : Place) : occurrences { s with io := io } due events u p =
      s.occurrences due events u p := by
  cases p with
  | reader d => simp only [occurrences, h.queue]
  | writer d => simp only [occurrences, h.queue]
  | connect d => simp only [occurrences, h.connects]
  | _ => rfl

theorem Grounded.quiet {s : CoroutineScheduler V A} {io : IoSet A}
    (h : s.Grounded failing events) (hq : IoSet.Quiet s.io io) :
    Grounded failing events { s with io := io } where
  placed := hq.placed h.placed
  apart r hr := by
    rw [hq.connects]
    exact ⟨(h.apart r hr).1.trans_le hq.next, (h.apart r hr).2⟩
  alone d dir t t' hd ht ht' := h.alone d dir t t' hd (hq.connects d ▸ ht) (hq.queue d dir ▸ ht')
  awake p hp := h.awake p (hq.wake p hp)

theorem Wired.quiet {s : CoroutineScheduler V A} {io : IoSet A} (h : s.Wired failing events)
    (hq : IoSet.Quiet s.io io) : Wired failing events { s with io := io } where
  toGrounded := h.toGrounded.quiet hq
  armed r job hr hj := by
    rw [hq.queue]
    exact h.armed r job hr hj

theorem Sound.quiet {s : CoroutineScheduler V A} {io : IoSet A} (h : s.Sound) (hq : IoSet.Quiet s.io io) :
    Sound { s with io := io } :=
  ⟨h.tasks.of_occurrences rfl rfl rfl fun u p _ _ => quiet_occurrences hq u p, h.wired.quiet hq⟩

/-- The calls that open a descriptor. -/
theorem onIo_sound {s : CoroutineScheduler V A} {x : EStateM Abort (IoSet A) α} (h : s.Sound)
    (hx : Post (fun _ t => IoSet.Quiet s.io t) (fun _ _ => True) (x s.io)) :
    Post (fun _ t => t.Sound) Aborts (onIo x s) :=
  onIo_post hx fun _ _ => h.quiet

theorem scheduleTimer_post (s : CoroutineScheduler V A) (t deadline : Nat) : Post
    (fun _ s' => ∃ readiness, s' = { s with readiness := readiness } ∧
      ∀ due events u p, s'.occurrences due events u p =
        s.occurrences due events u p + if u = t ∧ p = .timer then 1 else 0)
    Aborts (scheduleTimer t deadline s) := by
  unfold scheduleTimer Readiness.scheduleTimer
  by_cases hlt : s.readiness.nextTimerSequence < usizeMax
  · simp only [hlt, if_true]
    refine ⟨_, rfl, fun due events u p => ?_⟩
    cases p with
    | timer =>
      have hperm := ((List.perm_orderedInsert Timer.Before
        ⟨deadline, s.readiness.nextTimerSequence, t⟩ s.readiness.timers).map Timer.task).count_eq u
      simp only [occurrences, hperm, List.map_cons, and_true]
      by_cases hu : u = t
      · simp [hu]
        omega
      · have hu' : t ≠ u := fun he => hu he.symm
        simp [hu, hu']
    | _ => simp only [reduceCtorEq, and_false, if_false, Nat.add_zero]; rfl
  · simp only [hlt, if_false]
    exact ⟨_, rfl⟩

theorem Wired.setReadiness {s : CoroutineScheduler V A} (h : s.Wired failing events)
    (readiness : Readiness) : Wired failing events { s with readiness := readiness } :=
  ⟨⟨h.placed, h.apart, h.alone, h.awake⟩, h.armed⟩

theorem Parking.timer {s : CoroutineScheduler V A} (h : s.Parking t r n)
    (hw : s.Wired failing events) (deadline : Nat) :
    Post (fun _ s' => s'.Parking t r (fun p => n p + if p = .timer then 1 else 0) ∧
      s'.Wired failing events) Aborts (scheduleTimer t deadline s) := by
  refine (scheduleTimer_post s t deadline).mono (fun _ s' hs' => ?_) fun _ _ => id
  obtain ⟨readiness, rfl, hocc⟩ := hs'
  exact ⟨h.register rfl rfl rfl fun u p _ => hocc _ _ u p, hw.setReadiness readiness⟩

theorem sleep_sound {s : CoroutineScheduler V A} (h : s.Sound) (deadline : Option Nat) :
    Post (fun _ t => t.Sound) Aborts (sleep deadline s) := by
  refine (activeTask_post s _).bind fun t s' _ ht => ?_
  obtain ⟨rfl, ha⟩ := ht
  cases deadline with
  | none => exact ⟨_, rfl⟩
  | some deadline =>
    have hstart := Parking.start h.tasks ha
    refine Post.bind_ok (blockActive_eq ha hstart.context) ?_
    refine ((hstart.block .timer).timer (h.wired.setContext t _) deadline).bind fun _ s' _ hs' => ?_
    refine hs'.1.suspend hs'.2 fun p => ?_
    exact (Plain.expects (r := .timer) trivial).2 (Nat.zero_add _)

theorem count_if_direction (d d' x u : Nat) (dir dir' : IoDirection) :
    (if d' = d ∧ dir' = dir then [x] else []).count u =
      if u = x ∧ Place.ofDirection d' dir' = .ofDirection d dir then 1 else 0 := by
  by_cases hu : u = x
  · by_cases hd : d' = d ∧ dir' = dir
    · simp [hu, hd]
    · have hp : Place.ofDirection d' dir' ≠ .ofDirection d dir := by
        intro he
        apply hd
        cases dir <;> cases dir' <;> simp_all [Place.ofDirection]
      simp [hd, hp]
  · have hu' : x ≠ u := fun he => hu he.symm
    by_cases hd : d' = d ∧ dir' = dir <;> simp [hd, hu, hu']

theorem occurrences_ofDirection (s : CoroutineScheduler V A) (u d : Nat) (dir : IoDirection) :
    s.occurrences due events u (.ofDirection d dir) =
      (s.io.queue d dir).count u + events.count ⟨u, d, dir⟩ := by
  cases dir <;> rfl

/-- Outside of the descriptor queues only the connections depend on the descriptors. -/
theorem occurrences_setIo {s : CoroutineScheduler V A} {io : IoSet A}
    (hc : ∀ d, io.connectTask d = s.io.connectTask d)
    (hp : ∀ d dir, p ≠ .ofDirection d dir) (u : Nat) :
    occurrences { s with io := io } due events' u p = s.occurrences due events u p := by
  cases p with
  | reader d => exact absurd rfl (hp d .readable)
  | writer d => exact absurd rfl (hp d .writable)
  | connect d => simp only [occurrences, hc]
  | _ => rfl

theorem enqueued_occurrences {s : CoroutineScheduler V A} {io : IoSet A}
    (h : IoSet.Enqueued d t dir s.io io) (u : Nat) (p : Place) :
    occurrences { s with io := io } due events u p =
      s.occurrences due events u p + if u = t ∧ p = .ofDirection d dir then 1 else 0 := by
  by_cases hp : ∃ d' dir', p = .ofDirection d' dir'
  · obtain ⟨d', dir', rfl⟩ := hp
    rw [occurrences_ofDirection, occurrences_ofDirection, h.queue, List.count_append,
      count_if_direction]
    omega
  · have hp : ∀ d' dir', p ≠ .ofDirection d' dir' := fun d' dir' he => hp ⟨d', dir', he⟩
    rw [if_neg fun he => hp d dir he.2, Nat.add_zero]
    exact occurrences_setIo h.connectTask hp u

theorem Grounded.enqueued {s : CoroutineScheduler V A} {io : IoSet A}
    (h : s.Grounded failing events) (hq : IoSet.Enqueued d t dir s.io io)
    (halone : ∀ t', failing d → s.io.connectTask d = some t' → t = t') :
    Grounded failing events { s with io := io } where
  placed := hq.placed h.placed
  apart r hr := by
    rw [hq.connectTask, hq.next]
    exact h.apart r hr
  alone d' dir' u u' hd hu hu' := by
    rw [hq.connectTask] at hu
    rw [hq.queue] at hu'
    rcases List.mem_append.1 hu' with hu' | hu'
    · exact h.alone d' dir' u u' hd hu hu'
    · split at hu'
      · rename_i he
        rw [List.mem_singleton.1 hu']
        exact halone u (he.1 ▸ hd) (he.1 ▸ hu)
      · cases hu'
  awake p hp := h.awake p (hq.inFlight ▸ hp)

theorem Wired.enqueued {s : CoroutineScheduler V A} {io : IoSet A} (h : s.Wired failing events)
    (hq : IoSet.Enqueued d t dir s.io io)
    (halone : ∀ t', failing d → s.io.connectTask d = some t' → t = t') :
    Wired failing events { s with io := io } where
  toGrounded := h.toGrounded.enqueued hq halone
  armed r job hr hj := by
    rcases h.armed r job hr hj with ha | ha
    · exact .inl (by rw [hq.queue]; exact List.mem_append_left _ ha)
    · exact .inr ha

theorem Parking.enqueue {s : CoroutineScheduler V A} (h : s.Parking t r n)
    (hw : s.Wired (fun _ => False) events) (d : Nat) (dir : IoDirection) :
    Post (fun _ s' =>
      s'.Parking t r (fun p => n p + if p = .ofDirection d dir then 1 else 0) ∧
        s'.Wired (fun _ => False) events) Aborts (onIo (IoSet.enqueueWaiter d t dir) s) :=
  onIo_post (IoSet.enqueueWaiter_enqueued s.io d t dir) fun _ _ hio =>
    ⟨h.register rfl rfl rfl fun u p _ => enqueued_occurrences hio u p,
      hw.enqueued hio fun _ => False.elim⟩

theorem waitDescriptor_sound {s : CoroutineScheduler V A} (h : s.Sound) (d : Nat)
    (dir : IoDirection) : Post (fun _ t => t.Sound) Aborts (waitDescriptor d dir s) := by
  refine (activeTask_post s _).bind fun t s' _ ht => ?_
  obtain ⟨rfl, ha⟩ := ht
  have hwait : Post (fun _ s'' => s'' = s') Aborts (onIo (IoSet.ensureWaitable d dir) s') :=
    onIo_post ((IoSet.ensureWaitable_spec s'.io d dir).mono (fun _ _ ht => ht.1)
      fun _ _ _ => trivial) fun _ _ hio => by rw [hio]
  refine hwait.bind fun _ s'' _ hs'' => ?_
  subst hs''
  have hstart := Parking.start h.tasks ha
  refine Post.bind_ok (blockActive_eq ha hstart.context) ?_
  refine ((hstart.block (.ofDirection d dir)).enqueue (h.wired.setContext t _) d dir).bind
    fun _ s' _ hs' => hs'.1.suspend hs'.2 fun p => ?_
  have hplain : Plain (.ofDirection d dir) := by cases dir <;> trivial
  refine hplain.expects.2 ?_
  cases dir <;> exact Nat.zero_add _

theorem withConnect_occurrences {s : CoroutineScheduler V A} (hnone : s.io.connectTask d = none)
    (waiter : ConnectWaiter A) (u : Nat) (p : Place) :
    occurrences { s with io := s.io.withConnect d waiter } due events u p =
      s.occurrences due events u p + if u = waiter.task ∧ p = .connect d then 1 else 0 := by
  cases p with
  | connect d' =>
    simp only [occurrences, IoSet.withConnect_connectTask, Place.connect.injEq]
    by_cases hd : d' = d
    · subst hd
      simp [hnone, eq_comm]
    · simp [hd]
  | _ => simp only [reduceCtorEq, and_false, if_false, Nat.add_zero]; rfl

theorem Grounded.withConnect {s : CoroutineScheduler V A} (h : s.Grounded failing events)
    (hd : s.io.descriptors.lookup d = some state) (hk : state.descriptor = .stream .tcp)
    (hwake : ∀ r, s.resolver = some r → r.wakeDescriptor ≠ d)
    (waiter : ConnectWaiter A)
    (halone : failing d → ∀ dir, ∀ t' ∈ s.io.queue d dir, t' = waiter.task) :
    Grounded failing events { s with io := s.io.withConnect d waiter } where
  placed := h.placed.withConnect hd hk waiter
  apart r hr := by
    rw [IoSet.withConnect_connectTask, if_neg (hwake r hr)]
    exact h.apart r hr
  alone d' dir t t' hd ht ht' := by
    rw [IoSet.withConnect_connectTask] at ht
    split at ht
    · rename_i he
      cases ht
      exact halone (he ▸ hd) dir t' (he ▸ ht')
    · exact h.alone d' dir t t' hd ht ht'
  awake := h.awake

theorem Parking.connect {s : CoroutineScheduler V A} (h : s.Parking t r n)
    (hw : s.Wired (fun _ => False) events) (hd : s.io.descriptors.lookup d = some state)
    (hk : state.descriptor = .stream .tcp)
    (hwake : ∀ r, s.resolver = some r → r.wakeDescriptor ≠ d) (waiter : ConnectWaiter A)
    (ht : waiter.task = t) :
    Post (fun _ s' => s'.Parking t r (fun p =>
        n p + (if p = .connect d then 1 else 0) + if p = .writer d then 1 else 0) ∧
      s'.Wired (fun _ => False) events) Aborts
      (onIo (IoSet.enqueueTcpConnectWaiter d waiter) s) := by
  subst ht
  refine onIo_post (IoSet.enqueueTcpConnectWaiter_enqueued s.io d waiter) fun _ io hio => ?_
  obtain ⟨hnone, hio⟩ := hio
  have hconn : Parking waiter.task r _ { s with io := s.io.withConnect d waiter } :=
    h.register rfl rfl rfl fun u p _ => withConnect_occurrences hnone waiter u p
  have hwired : Wired (fun _ => False) events { s with io := s.io.withConnect d waiter } :=
    ⟨hw.toGrounded.withConnect hd hk hwake waiter fun hf => hf.elim, hw.armed⟩
  exact ⟨hconn.register (q := .ofDirection d .writable) rfl rfl rfl fun u p _ =>
    enqueued_occurrences (s := { s with io := s.io.withConnect d waiter }) hio u p,
    hwired.enqueued hio fun _ hf => hf.elim⟩

theorem scheduleTimeout_post {s : CoroutineScheduler V A} (h : s.Parking t r n)
    (hw : s.Wired failing events) (timeout : Timeout) :
    Post (fun _ s' => (∃ k ≤ 1, s'.Parking t r fun p => n p + if p = .timer then k else 0) ∧
      s'.Wired failing events) Aborts (scheduleTimeout t timeout s) := by
  cases timeout with
  | before deadline =>
    exact (h.timer hw deadline).mono (fun _ _ hs => ⟨⟨1, le_refl _, hs.1⟩, hs.2⟩) fun _ _ => id
  | unlimited => exact ⟨⟨0, Nat.zero_le _, by simpa using h⟩, hw⟩
  | tooLarge => exact ⟨⟨0, Nat.zero_le _, by simpa using h⟩, hw⟩

theorem checkTimeout_post (s : CoroutineScheduler V A) (timeout : Timeout) :
    Post (fun _ t => t = s) Aborts (checkTimeout timeout s) := by
  unfold checkTimeout
  split
  · exact ⟨_, rfl⟩
  · rfl

theorem createTcpConnection_post {s : CoroutineScheduler V A} (h : s.io.Placed)
    (start : ConnectStart) : Post
    (fun outcome s' => (outcome = .connected s.io.nextId ∨ outcome = .inProgress s.io.nextId) ∧
      ∃ io, s' = { s with io := io } ∧ IoSet.Quiet s.io io ∧
        io.descriptors.lookup s.io.nextId = some (.new (.stream .tcp)))
    Aborts (onIo (IoSet.createTcpConnection start) s) :=
  onIo_post ((IoSet.createTcpConnection_spec s.io start).mono (fun _ _ => id)
    fun _ _ _ => trivial) fun _ io hio =>
      ⟨hio.1, io, rfl, hio.2 ▸ IoSet.addNew_quiet h (.stream .tcp),
        hio.2 ▸ AList.lookup_insert _⟩

theorem connectTcp_sound {s : CoroutineScheduler V A} (h : s.Sound) (timeout : Timeout)
    (start : ConnectStart) (frame returnValue : Nat) :
    Post (fun _ t => t.Sound) Aborts (connectTcp timeout start frame returnValue s) := by
  refine (activeTask_post s _).bind fun t s' _ ht => ?_
  obtain ⟨rfl, ha⟩ := ht
  refine (checkTimeout_post s' timeout).bind fun _ s'' _ hs'' => ?_
  subst hs''
  refine (createTcpConnection_post h.wired.placed start).bind fun outcome s _ hs => ?_
  obtain ⟨hout, io, rfl, hq, hnew⟩ := hs
  have hs := h.quiet hq
  cases outcome with
  | connected d => exact hs
  | inProgress d =>
    have hd : d = s''.io.nextId := by simpa using hout
    have hstart : Parking t none _ { s'' with io := io } := Parking.start hs.tasks ha
    refine Post.bind_ok (blockActive_eq ha hstart.context) ?_
    refine ((hstart.block (.tcpConnect d)).connect (hs.wired.setContext t _) (hd ▸ hnew) rfl ?_
      ⟨t, frame, returnValue, []⟩ rfl).bind fun _ s' _ hs' => ?_
    · intro r hr
      exact (h.wired.apart r hr).1.ne.trans_eq hd.symm
    refine (scheduleTimeout_post hs'.1 hs'.2 timeout).bind fun _ s'' _ hs'' => ?_
    obtain ⟨⟨k, hk, hpark⟩, hw⟩ := hs''
    refine hpark.suspend hw fun p => ?_
    cases p <;> simp [WaitReason.Expects, WaitReason.place, hk]

theorem Grounded.setContext {s : CoroutineScheduler V A} (h : s.Grounded failing events) (t : Nat)
    (c : CoroutineContext) : (s.setContext t c).Grounded failing events :=
  ⟨h.placed, h.apart, h.alone, h.awake⟩

/-- Arming the wake descriptor completes the wiring. -/
theorem armResolverWake_post {s : CoroutineScheduler V A} (h : s.Grounded failing events)
    (hr : s.resolver = some r) : Post
    (fun _ s' => ∃ io, s' = { s with io := io } ∧ s'.Wired failing events ∧
      ∀ due u p, ¬Exempt u p → s'.occurrences due events u p = s.occurrences due events u p)
    Aborts (onIo (IoSet.armResolverWake r.wakeDescriptor) s) := by
  refine onIo_post (IoSet.armResolverWake_enqueued s.io r.wakeDescriptor) fun _ io hio => ?_
  refine ⟨io, rfl, ?_⟩
  rcases hio with ⟨rfl, hthere⟩ | hio
  · refine ⟨⟨h, fun r' job hr' _ => ?_⟩, fun _ _ _ _ => rfl⟩
    cases hr.symm.trans hr'
    rcases hthere with hq | hf
    · exact .inl hq
    · obtain ⟨p, hp⟩ := Option.isSome_iff_exists.1 hf
      exact .inr (h.awake p hp)
  · refine ⟨⟨h.enqueued hio fun t' _ ht' => ?_, fun r' job hr' _ => .inl ?_⟩,
      fun due u p hex => ?_⟩
    · rw [(h.apart r hr).2] at ht'
      cases ht'
    · cases hr.symm.trans hr'
      rw [hio.queue]
      exact List.mem_append_right _ (by simp)
    · rw [enqueued_occurrences hio, if_neg, Nat.add_zero]
      rintro ⟨hu, hp⟩
      exact hex ⟨hu, _, hp⟩

theorem ensureResolver_sound {s : CoroutineScheduler V A} (h : s.Sound)
    (refused : Option VmError) :
    Post (fun r s' => s'.Sound ∧ s'.active = s.active ∧ s'.resolver = some r) Aborts
      (ensureResolver refused s) := by
  unfold ensureResolver
  refine Post.get_bind ?_
  cases hr : s.resolver with
  | some r => exact ⟨h, rfl, hr⟩
  | none =>
    cases refused with
    | some e => exact ⟨_, rfl⟩
    | none =>
      have hreg := onIo_post (Q := fun id s' => id = s.io.nextId ∧
        s' = { s with io := s.io.addNew .resolverWake })
        ((IoSet.register_spec s.io .resolverWake).mono (fun _ _ => id) fun _ _ _ => trivial)
        fun _ _ hio => ⟨hio.1, hio.2 ▸ rfl⟩
      refine hreg.bind fun id s' _ hs' => ?_
      obtain ⟨rfl, rfl⟩ := hs'
      refine Post.modify_bind ?_
      have hquiet := h.quiet (IoSet.addNew_quiet h.wired.placed .resolverWake)
      refine ⟨⟨hquiet.tasks.of_occurrences rfl rfl rfl fun u p _ _ => ?_,
        ⟨hquiet.wired.placed, fun r hr' => ?_, hquiet.wired.alone, hquiet.wired.awake⟩,
        fun r job hr' hj => ?_⟩, rfl, rfl⟩
      · cases p with
        | resolver job => simp [occurrences, resolveTask, hr]
        | _ => rfl
      · cases hr'
        refine ⟨Nat.lt_succ_self _, ?_⟩
        simp [IoSet.connectTask, IoSet.addNew, h.wired.placed.not_connecting]
      · cases hr'
        simp [resolveTask] at hj

theorem submit_eq_ok {r r' : ResolverSet} (h : r.submit waiter refused = .ok (job, r')) :
    r'.wakeDescriptor = r.wakeDescriptor ∧ r.waiters.lookup job = none ∧
      r'.waiters = r.waiters.insert job waiter := by
  unfold ResolverSet.submit at h
  split at h
  · split at h
    · cases h
    · split at h
      · cases h
      · rename_i hnone
        cases h
        exact ⟨rfl, by simpa using hnone, rfl⟩
  · cases h

theorem submit_occurrences {s : CoroutineScheduler V A} {r r' : ResolverSet}
    (hr : s.resolver = some r) (hnone : r.waiters.lookup job = none)
    (hins : r'.waiters = r.waiters.insert job waiter) (u : Nat) (p : Place) :
    occurrences { s with resolver := some r' } due events u p =
      s.occurrences due events u p + if u = waiter.task ∧ p = .resolver job then 1 else 0 := by
  cases p with
  | resolver k =>
    simp only [occurrences, resolveTask, hr, Option.bind_some, hins, lookup_insert_eq,
      Place.resolver.injEq]
    by_cases hk : k = job
    · subst hk
      simp [hnone, eq_comm]
    · simp [hk]
  | _ => simp only [reduceCtorEq, and_false, if_false, Nat.add_zero]; rfl

theorem resolveAndConnectTcp_sound {s : CoroutineScheduler V A} (h : s.Sound) (timeout : Timeout)
    (noResolver refused : Option VmError) (frame returnValue : Nat) :
    Post (fun _ t => t.Sound) Aborts
      (resolveAndConnectTcp timeout noResolver refused frame returnValue s) := by
  refine (activeTask_post s _).bind fun t s' _ ht => ?_
  obtain ⟨rfl, ha⟩ := ht
  refine (checkTimeout_post s' timeout).bind fun _ s'' _ hs'' => ?_
  subst hs''
  refine (ensureResolver_sound h noResolver).bind fun r s _ hs => ?_
  obtain ⟨hs, hact, hr⟩ := hs
  have ha := hact.trans ha
  cases hsub : r.submit ⟨t, frame, returnValue⟩ refused with
  | error e => exact ⟨_, rfl⟩
  | ok pair =>
    obtain ⟨job, r'⟩ := pair
    obtain ⟨hwake, hnone, hins⟩ := submit_eq_ok hsub
    refine Post.modify_bind ?_
    have hpark : Parking t none _ { s with resolver := some r' } :=
      (Parking.start hs.tasks ha).register rfl rfl rfl fun u p _ =>
        submit_occurrences hr hnone hins u p
    have hground : Grounded (fun _ => False) [] { s with resolver := some r' } := by
      refine ⟨hs.wired.placed, fun r'' hr'' => ?_, fun _ _ _ _ hf => hf.elim, hs.wired.awake⟩
      cases hr''
      rw [hwake]
      exact hs.wired.apart r hr
    have hblock : blockResolve job t { s with resolver := some r' } =
        .ok () (CoroutineScheduler.setContext { s with resolver := some r' } t
          ⟨.running, some (.dnsResolve job)⟩) := by
      unfold blockResolve
      rw [blockActive_eq hpark.active hpark.context]
    refine Post.bind_ok hblock ?_
    refine (armResolverWake_post (hground.setContext t _) rfl).bind fun _ s' _ hs' => ?_
    obtain ⟨io, hio, hw, hocc⟩ := hs'
    have hpark' : s'.Parking t (some (.dnsResolve job)) _ :=
      (hpark.block (.dnsResolve job)).same (by rw [hio]) (by rw [hio]) (by rw [hio]) (hocc [])
    refine (scheduleTimeout_post hpark' hw timeout).bind fun _ s'' _ hs'' => ?_
    obtain ⟨⟨k, hk, hlast⟩, hw⟩ := hs''
    refine hlast.suspend hw fun p => ?_
    cases p <;> simp [WaitReason.Expects, WaitReason.place, hk]

/-- A running task that waits for nothing leaves the processor. -/
theorem Sound.leave {s : CoroutineScheduler V A} (h : s.Sound) (ha : s.active = some t)
    (hst : status ≠ .running ∧ status ≠ .waiting ∧ status.runnable = false) :
    (CoroutineScheduler.setContext { s with active := none } t ⟨status, none⟩).Sound := by
  obtain ⟨hc, hz⟩ := h.tasks.running ha
  have hc' : ({ s with active := none } : CoroutineScheduler V A).context? t =
    some ⟨.running, none⟩ := hc
  have hctx := fun u => context?_setContext (u := u) hc' ⟨status, none⟩
  refine ⟨Tasks.close (t := t) (c := ⟨status, none⟩) ?_ (by rw [hctx, if_pos rfl]) ?_ fun p => ?_,
    ⟨h.wired.placed, h.wired.apart, h.wired.alone, h.wired.awake⟩, h.wired.armed⟩
  · refine (h.tasks.open t).frame rfl (by simp) (fun u hu => ?_) (fun u => ?_) fun u p _ _ => ?_
    · rw [hctx, if_neg fun he : u = t => hu (he ▸ rfl)]
      rfl
    · refine ⟨nofun, fun hrun => ?_⟩
      rw [hctx] at hrun
      by_cases hu : u = t
      · simp [hu, hst.1] at hrun
      · rw [if_neg hu] at hrun
        have := (h.tasks.active u).2 hrun
        rw [ha] at this
        exact absurd (Option.some.inj this).symm hu
    · rw [setContext_occurrences]
      cases p <;> rfl
  · simp [hst.2.1]
  · rw [setContext_occurrences]
    have : ({ s with active := none } : CoroutineScheduler V A).occurrences [] [] t p = 0 :=
      (by cases p <;> rfl : _ = s.occurrences [] [] t p).trans (hz p)
    simp [Expected, hst.2.2, this]

theorem suspendActive_manual_sound {s : CoroutineScheduler V A} (h : s.Sound) :
    Post (fun _ t => t.Sound) Aborts (suspendActive .manual s) := by
  unfold suspendActive
  cases ha : s.active with
  | none => exact ⟨_, rfl⟩
  | some t =>
    simp only [Option.bind_some, (h.tasks.running ha).1, Option.map_some]
    exact h.leave ha ⟨nofun, nofun, rfl⟩

theorem completeActive_sound {s : CoroutineScheduler V A} (h : s.Sound) (failed : Bool) :
    Post (fun _ t => t.Sound) Aborts (completeActive failed s) := by
  unfold completeActive
  cases ha : s.active with
  | none => exact h
  | some t =>
    simp only [Option.bind_some, (h.tasks.running ha).1, Option.map_some]
    cases failed
    · exact h.leave ha ⟨nofun, nofun, rfl⟩
    · exact h.leave ha ⟨nofun, nofun, rfl⟩

end CoroutineScheduler

end Rphp.Scheduler
