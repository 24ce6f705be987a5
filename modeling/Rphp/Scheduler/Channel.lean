import Rphp.Machine
import Mathlib.Data.List.Basic

namespace Rphp.Scheduler
set_option autoImplicit true

/-- A parked receiver, with the frame slot its value is written to. -/
structure ReceiveWaiter where
  task : Nat
  frame : Nat
  returnValue : Nat
deriving DecidableEq, Repr

structure SendWaiter (V : Type u) where
  task : Nat
  value : V
deriving DecidableEq, Repr

structure Channel (V : Type u) where
  capacity : Nat
  buffer : List V
  senders : List (SendWaiter V)
  receivers : List ReceiveWaiter
deriving DecidableEq, Repr

def Channel.new (capacity : Nat) : Channel V := ⟨capacity, [], [], []⟩

inductive SendOutcome (V : Type u) where
  | complete
  | blocked
  | wakeReceiver (waiter : ReceiveWaiter) (value : V)
deriving DecidableEq, Repr

inductive ReceiveOutcome (V : Type u) where
  | ready (value : V) (wakeSender : Option Nat)
  | blocked
deriving DecidableEq, Repr

def Channel.send (c : Channel V) (task : Nat) (value : V) : SendOutcome V × Channel V :=
  match c.receivers with
  | waiter :: receivers => (.wakeReceiver waiter value, { c with receivers := receivers })
  | [] =>
    if c.buffer.length < c.capacity then
      (.complete, { c with buffer := c.buffer ++ [value] })
    else
      (.blocked, { c with senders := c.senders ++ [⟨task, value⟩] })

def Channel.receive (c : Channel V) (waiter : ReceiveWaiter) : ReceiveOutcome V × Channel V :=
  match c.buffer with
  | value :: buffer =>
    match c.senders with
    | sender :: senders =>
      (.ready value (some sender.task),
        { c with buffer := buffer ++ [sender.value], senders := senders })
    | [] => (.ready value none, { c with buffer := buffer })
  | [] => (.blocked, { c with receivers := c.receivers ++ [waiter] })

/-- All channels of one scheduler. Identifiers count from one. -/
structure ChannelSet (V : Type u) where
  channels : List (Channel V)
deriving DecidableEq, Repr

namespace ChannelSet

def empty : ChannelSet V := ⟨[]⟩

def create (set : ChannelSet V) (capacity : Nat) : Except VmError (Nat × ChannelSet V) :=
  if capacity = 0 then
    .error (.fatal "coroutine_channel capacity must be greater than zero")
  else if (set.channels.length : Int) + 1 ≤ i64Max then
    .ok (set.channels.length + 1, ⟨set.channels ++ [.new capacity]⟩)
  else
    .error (.fatal "coroutine channel identifier space exhausted")

/-- The source turns identifier zero into the index `usize::MAX`, which no vector reaches. -/
def channel? (set : ChannelSet V) (id : Nat) : Option (Channel V) :=
  if id = 0 then none else set.channels[id - 1]?

def unknownChannel (id : Nat) : VmError := .fatal s!"unknown coroutine channel {id}"

def send (set : ChannelSet V) (id task : Nat) (value : V) :
    Except VmError (SendOutcome V × ChannelSet V) :=
  match set.channel? id with
  | none => .error (unknownChannel id)
  | some c =>
    let r := c.send task value
    .ok (r.1, ⟨set.channels.set (id - 1) r.2⟩)

def receive (set : ChannelSet V) (id : Nat) (waiter : ReceiveWaiter) :
    Except VmError (ReceiveOutcome V × ChannelSet V) :=
  match set.channel? id with
  | none => .error (unknownChannel id)
  | some c =>
    let r := c.receive waiter
    .ok (r.1, ⟨set.channels.set (id - 1) r.2⟩)

end ChannelSet

/-- What the users of one channel have observed so far. -/
structure ChannelLog (V : Type u) where
  accepted : List V := []
  delivered : List (Nat × V) := []
  sendersBlocked : List Nat := []
  sendersWoken : List Nat := []
  receiversBlocked : List ReceiveWaiter := []
  receiversServed : List ReceiveWaiter := []
deriving DecidableEq, Repr

namespace ChannelLog

/-- A send is accepted at once; a waiting receiver gets its value in the same call. -/
def send (log : ChannelLog V) (task : Nat) (value : V) : SendOutcome V → ChannelLog V
  | .complete => { log with accepted := log.accepted ++ [value] }
  | .blocked =>
    { log with
      accepted := log.accepted ++ [value]
      sendersBlocked := log.sendersBlocked ++ [task] }
  | .wakeReceiver waiter delivered =>
    { log with
      accepted := log.accepted ++ [value]
      delivered := log.delivered ++ [(waiter.task, delivered)]
      receiversServed := log.receiversServed ++ [waiter] }

def receive (log : ChannelLog V) (waiter : ReceiveWaiter) : ReceiveOutcome V → ChannelLog V
  | .ready value wakeSender =>
    { log with
      delivered := log.delivered ++ [(waiter.task, value)]
      sendersWoken := log.sendersWoken ++ wakeSender.toList }
  | .blocked => { log with receiversBlocked := log.receiversBlocked ++ [waiter] }

end ChannelLog

/-- The history of a channel against its present content. -/
structure Channel.InOrder (c : Channel V) (log : ChannelLog V) : Prop where
  conserved : log.accepted =
    log.delivered.map Prod.snd ++ (c.buffer ++ c.senders.map SendWaiter.value)
  senders_fifo : log.sendersBlocked = log.sendersWoken ++ c.senders.map SendWaiter.task
  receivers_fifo : log.receiversBlocked = log.receiversServed ++ c.receivers
  bounded : c.buffer.length ≤ c.capacity
  sender_full : c.senders ≠ [] → c.buffer.length = c.capacity
  receiver_idle : c.receivers ≠ [] → c.buffer = [] ∧ c.senders = []

theorem Channel.InOrder.new (capacity : Nat) :
    (Channel.new capacity : Channel V).InOrder {} := by
  constructor <;> simp [Channel.new]

theorem Channel.InOrder.delivered_isPrefix (h : Channel.InOrder c log) :
    log.delivered.map Prod.snd <+: log.accepted :=
  ⟨_, h.conserved.symm⟩

theorem Channel.send_capacity (c : Channel V) (task : Nat) (value : V) :
    (c.send task value).2.capacity = c.capacity := by
  unfold Channel.send
  split
  · rfl
  · split <;> rfl

theorem Channel.receive_capacity (c : Channel V) (waiter : ReceiveWaiter) :
    (c.receive waiter).2.capacity = c.capacity := by
  unfold Channel.receive
  split
  · split <;> rfl
  · rfl

theorem Channel.InOrder.send {c : Channel V} (h : c.InOrder log) (task : Nat) (value : V) :
    (c.send task value).2.InOrder (log.send task value (c.send task value).1) := by
  obtain ⟨hc, hs, hr, hb, hf, hi⟩ := h
  unfold Channel.send
  cases hrc : c.receivers with
  | cons waiter receivers =>
    obtain ⟨hbuf, hsend⟩ := hi (by simp [hrc])
    constructor <;> simp_all [ChannelLog.send]
  | nil =>
    by_cases hlt : c.buffer.length < c.capacity
    · have hsend : c.senders = [] := by
        by_contra hne
        have := hf hne
        omega
      have hroom : c.buffer.length + 1 ≤ c.capacity := hlt
      simp only [hlt, ↓reduceIte]
      constructor <;> simp_all [ChannelLog.send]
    · have hfull : c.buffer.length = c.capacity := by omega
      simp only [hlt, ↓reduceIte]
      constructor <;> simp_all [ChannelLog.send]

theorem Channel.InOrder.receive {c : Channel V} (h : c.InOrder log) (hpos : 0 < c.capacity)
    (waiter : ReceiveWaiter) :
    (c.receive waiter).2.InOrder (log.receive waiter (c.receive waiter).1) := by
  obtain ⟨hc, hs, hr, hb, hf, hi⟩ := h
  unfold Channel.receive
  cases hbuf : c.buffer with
  | nil =>
    have hsend : c.senders = [] := by
      by_contra hne
      have := hf hne
      simp only [hbuf, List.length_nil] at this
      omega
    constructor <;> simp_all [ChannelLog.receive]
  | cons value buffer =>
    have hrec : c.receivers = [] := by
      by_contra hne
      have := (hi hne).1
      simp [hbuf] at this
    cases hsend : c.senders with
    | nil =>
      constructor <;> simp_all [ChannelLog.receive]
      omega
    | cons sender senders => constructor <;> simp_all [ChannelLog.receive]

/-- The calls tasks make on one channel. -/
inductive ChannelCall (V : Type u) where
  | send (task : Nat) (value : V)
  | receive (waiter : ReceiveWaiter)
deriving DecidableEq, Repr

/-- A channel together with its history. -/
structure LoggedChannel (V : Type u) where
  channel : Channel V
  log : ChannelLog V
deriving DecidableEq, Repr

namespace LoggedChannel

def call (s : LoggedChannel V) : ChannelCall V → LoggedChannel V
  | .send task value =>
    let r := s.channel.send task value
    ⟨r.2, s.log.send task value r.1⟩
  | .receive waiter =>
    let r := s.channel.receive waiter
    ⟨r.2, s.log.receive waiter r.1⟩

/-- The channel and its history after any interleaving of calls. -/
def after (capacity : Nat) (calls : List (ChannelCall V)) : LoggedChannel V :=
  calls.foldl call ⟨.new capacity, {}⟩

end LoggedChannel

/-- Without room in the buffer a receiver never takes the value of a blocked sender: both wait. -/
theorem not_inOrder_of_zero_capacity :
    (ChannelSet.empty : ChannelSet Nat).create 0 =
      .error (.fatal "coroutine_channel capacity must be greater than zero") ∧
    ¬ ∀ (capacity : Nat) (calls : List (ChannelCall Nat)),
      (LoggedChannel.after capacity calls).channel.InOrder
        (LoggedChannel.after capacity calls).log := by
  refine ⟨rfl, fun h => ?_⟩
  have hi := (h 0 [.send 1 10, .receive ⟨2, 0, 0⟩]).receiver_idle (by decide)
  exact absurd hi.2 (by decide)

/-- The operations of a channel set, by any task and on any identifier. -/
inductive ChannelOp (V : Type u) where
  | create (capacity : Nat)
  | call (id : Nat) (c : ChannelCall V)
deriving DecidableEq, Repr

/-- A channel set with the history of each identifier. -/
structure LoggedSet (V : Type u) where
  set : ChannelSet V := .empty
  logs : Nat → ChannelLog V := fun _ => {}

namespace LoggedSet

/-- A refused operation changes nothing. -/
def step (s : LoggedSet V) : ChannelOp V → LoggedSet V
  | .create capacity =>
    match s.set.create capacity with
    | .ok (_, set) => { s with set := set }
    | .error _ => s
  | .call id (.send task value) =>
    match s.set.send id task value with
    | .ok (outcome, set) =>
      ⟨set, Function.update s.logs id ((s.logs id).send task value outcome)⟩
    | .error _ => s
  | .call id (.receive waiter) =>
    match s.set.receive id waiter with
    | .ok (outcome, set) =>
      ⟨set, Function.update s.logs id ((s.logs id).receive waiter outcome)⟩
    | .error _ => s

def after (ops : List (ChannelOp V)) : LoggedSet V := ops.foldl step {}

/-- Every created channel has room for a value and a history in order; other histories are empty. -/
structure InOrder (s : LoggedSet V) : Prop where
  channel : ∀ id c, s.set.channel? id = some c → 0 < c.capacity ∧ c.InOrder (s.logs id)
  fresh : ∀ id, s.set.channel? id = none → s.logs id = {}

end LoggedSet

namespace ChannelSet

theorem channel?_create {set set' : ChannelSet V} {id : Nat}
    (h : set.create capacity = .ok (id, set')) (k : Nat) :
    0 < capacity ∧ set.channel? id = none ∧
      set'.channel? k = if k = id then some (.new capacity) else set.channel? k := by
  unfold create at h
  split at h
  · cases h
  · rename_i hne
    split at h
    · cases h
      refine ⟨Nat.pos_of_ne_zero hne, by simp [channel?], ?_⟩
      simp only [channel?, List.getElem?_append]
      by_cases hk : k = 0
      · simp [hk]
      · by_cases hlt : k - 1 < set.channels.length
        · have : k ≠ set.channels.length + 1 := by omega
          simp [hk, hlt, this]
        · by_cases heq : k = set.channels.length + 1
          · simp [heq]
          · have h1 : k - 1 - set.channels.length ≠ 0 := by omega
            simp [hk, hlt, heq, h1]
    · cases h

/-- Storing a channel back under an identifier in use replaces that channel only. -/
theorem channel?_set {set : ChannelSet V} {id : Nat} (h : set.channel? id = some c) (c' : Channel V)
    (k : Nat) : (⟨set.channels.set (id - 1) c'⟩ : ChannelSet V).channel? k =
      if k = id then some c' else set.channel? k := by
  unfold channel? at h ⊢
  split at h
  · cases h
  · rename_i hid
    obtain ⟨hlt, _⟩ := List.getElem?_eq_some_iff.1 h
    by_cases hk : k = 0
    · have : k ≠ id := by omega
      simp [hk, Ne.symm hid]
    · by_cases hkid : k = id
      · simp [hkid, hid, hlt]
      · have : id - 1 ≠ k - 1 := by omega
        simp [hk, hkid, List.getElem?_set_ne this]

theorem send_eq_ok {set set' : ChannelSet V} {id : Nat}
    (h : set.send id task value = .ok (outcome, set')) :
    ∃ c, set.channel? id = some c ∧ outcome = (c.send task value).1 ∧
      ∀ k, set'.channel? k = if k = id then some (c.send task value).2 else set.channel? k := by
  unfold send at h
  split at h
  · cases h
  · rename_i c hc
    cases h
    exact ⟨c, hc, rfl, channel?_set hc _⟩

theorem receive_eq_ok {set set' : ChannelSet V} {id : Nat}
    (h : set.receive id waiter = .ok (outcome, set')) :
    ∃ c, set.channel? id = some c ∧ outcome = (c.receive waiter).1 ∧
      ∀ k, set'.channel? k = if k = id then some (c.receive waiter).2 else set.channel? k := by
  unfold receive at h
  split at h
  · cases h
  · rename_i c hc
    cases h
    exact ⟨c, hc, rfl, channel?_set hc _⟩

end ChannelSet

namespace LoggedSet

theorem InOrder.init : InOrder ({} : LoggedSet V) := by
  constructor <;> intros <;> simp_all [ChannelSet.channel?, ChannelSet.empty]

/-- One channel and its history change together, the others stay. -/
theorem InOrder.update {s : LoggedSet V} {id : Nat} {set' : ChannelSet V} (h : s.InOrder) (hc : s.set.channel? id = some c)
    (hset : ∀ k, set'.channel? k = if k = id then some c' else s.set.channel? k)
    (hcap : c'.capacity = c.capacity) (ho : c'.InOrder log) :
    InOrder ⟨set', Function.update s.logs id log⟩ := by
  constructor
  · intro k d hd
    simp only [hset] at hd
    by_cases hk : k = id
    · subst hk
      simp only [↓reduceIte, Option.some.injEq] at hd
      subst hd
      simp only [Function.update_self]
      exact ⟨hcap ▸ (h.channel _ _ hc).1, ho⟩
    · simp only [hk, ↓reduceIte] at hd
      simp only [ne_eq, hk, not_false_eq_true, Function.update_of_ne]
      exact h.channel k d hd
  · intro k hk
    simp only [hset] at hk
    split at hk
    · cases hk
    · rename_i hne
      simpa only [ne_eq, hne, not_false_eq_true, Function.update_of_ne] using h.fresh k hk

theorem InOrder.step {s : LoggedSet V} (h : s.InOrder) (op : ChannelOp V) :
    (s.step op).InOrder := by
  cases op with
  | create capacity =>
    simp only [LoggedSet.step]
    split
    · rename_i id set hcr
      have hget := ChannelSet.channel?_create hcr
      constructor
      · intro k d hd
        obtain ⟨hpos, hfresh, he⟩ := hget k
        rw [he] at hd
        split at hd
        · rename_i hk
          cases hd
          rw [h.fresh k (hk ▸ hfresh)]
          exact ⟨hpos, .new capacity⟩
        · exact h.channel k d hd
      · intro k hk
        rw [(hget k).2.2] at hk
        split at hk
        · cases hk
        · exact h.fresh k hk
    · exact h
  | call id c =>
    cases c with
    | send task value =>
      simp only [LoggedSet.step]
      split
      · rename_i outcome set hs
        obtain ⟨c, hc, rfl, hset⟩ := ChannelSet.send_eq_ok hs
        exact h.update hc hset (c.send_capacity _ _) ((h.channel _ _ hc).2.send task value)
      · exact h
    | receive waiter =>
      simp only [LoggedSet.step]
      split
      · rename_i outcome set hs
        obtain ⟨c, hc, rfl, hset⟩ := ChannelSet.receive_eq_ok hs
        obtain ⟨hpos, ho⟩ := h.channel _ _ hc
        exact h.update hc hset (c.receive_capacity _) (ho.receive hpos waiter)
      · exact h

theorem InOrder.foldl {s : LoggedSet V} (h : s.InOrder) (ops : List (ChannelOp V)) :
    (ops.foldl LoggedSet.step s).InOrder := by
  induction ops generalizing s with
  | nil => exact h
  | cons op ops ih => exact ih (h.step op)

theorem after_inOrder (ops : List (ChannelOp V)) : (after ops).InOrder :=
  InOrder.init.foldl ops

end LoggedSet

/-- On every channel a scheduler can create, values arrive in the order of the sends, nothing is
lost or duplicated, blocked tasks are served in turn, and the buffer bounds hold. -/
theorem channel_values_arrive_in_order (ops : List (ChannelOp V)) (id : Nat) (c : Channel V)
    (hc : (LoggedSet.after ops).set.channel? id = some c) :
    0 < c.capacity ∧
      (((LoggedSet.after ops).logs id).delivered.map Prod.snd <+:
        ((LoggedSet.after ops).logs id).accepted) ∧
      c.InOrder ((LoggedSet.after ops).logs id) := by
  obtain ⟨hpos, ho⟩ := (LoggedSet.after_inOrder ops).channel id c hc
  exact ⟨hpos, ho.delivered_isPrefix, ho⟩

/-- Two senders and one receiver on a channel of capacity one: the receiver gets the first value
and the second sender's value moves into the buffer. -/
theorem channel_values_arrive_in_order_capacity_one :
    ∃ (ops : List (ChannelOp Nat)) (c : Channel Nat),
      (LoggedSet.after ops).set.channel? 1 = some c ∧ c.buffer = [20] ∧
        ((LoggedSet.after ops).logs 1).delivered = [(3, 10)] ∧
        c.InOrder ((LoggedSet.after ops).logs 1) := by
  refine ⟨[.create 1, .call 1 (.send 1 10), .call 1 (.send 2 20), .call 1 (.receive ⟨3, 0, 0⟩)],
    ⟨1, [20], [], []⟩, by decide, rfl, by decide, ?_⟩
  exact (channel_values_arrive_in_order _ 1 _ (by decide)).2.2

end Rphp.Scheduler
