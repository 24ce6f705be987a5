import Rphp.Stdlib.Unserialize.CursorSafety

namespace Rphp.Stdlib.Unserialize
open Rphp.Lib
set_option autoImplicit true

/-! The parser never faults, except where a count that was declared is more than an allocation can
hold. -/

section Openings

/-- What an opening reserved is what its value declared. -/
def Opening.Declared (o : Opening) : Prop :=
  ∃ d, o.declarer.count o.start = .ok o.reserved d ∧ d.left = o.left

def Opening.Allotted (o : Opening) : Prop := o.reserved * entryBytes ≤ isizeMax

def State.Settled (s : State ω) : Prop := ∀ o ∈ s.opened, o.Declared ∧ o.Allotted

/-- A state from which the parser can go on, with at most `n` bytes left: every slot that it will
use takes one of them. -/
structure Sound (n : Nat) (s : State ω) : Prop where
  valid : s.cursor.Valid
  left : s.cursor.left ≤ n
  slots : s.nextReference + s.cursor.left ≤ isizeMax + 1
  settled : s.Settled

structure Forward (s t : State ω) : Prop where
  cursor : Ahead s.cursor t.cursor
  slots_le : s.nextReference ≤ t.nextReference
  slots : t.nextReference + t.cursor.left ≤ s.nextReference + s.cursor.left
  settled : t.Settled

/-- How the parser may stop: at bytes that it rejects, or at a count beyond any allocation. -/
def Fails (s : State ω) (e : Stop) (t : State ω) : Prop :=
  match e with
  | .rejected => Ahead s.cursor t.cursor ∧ t.Settled
  | .fault f => f = .capacity ∧ (∀ o ∈ t.opened, o.Declared) ∧ ∃ o ∈ t.opened, ¬ o.Allotted

def Proceeds {ω α : Type} (s : State ω) (r : EStateM.Result Stop (State ω) α) : Prop :=
  Post (fun _ t => Forward s t) (Fails s) r

def Safe (n : Nat) (m : Parser ω α) : Prop := ∀ s, Sound n s → Proceeds s (m s)

theorem Forward.refl (hs : Sound n s) : Forward s s :=
  ⟨.refl hs.valid, le_rfl, le_rfl, hs.settled⟩

theorem Forward.trans (h : Forward s t) (h' : Forward t u) : Forward s u :=
  ⟨h.cursor.trans h'.cursor, h.slots_le.trans h'.slots_le, h'.slots.trans h.slots, h'.settled⟩

theorem Forward.sound (h : Forward s t) (hs : Sound n s) : Sound n t :=
  ⟨h.cursor.valid hs.valid, h.cursor.left_le.trans hs.left, h.slots.trans hs.slots, h.settled⟩

theorem Fails.of_ahead (h : Ahead s.cursor t.cursor) (he : Fails t e u) : Fails s e u := by
  cases e with
  | rejected => exact ⟨h.trans he.1, he.2⟩
  | fault f => exact he

theorem Forward.proceeds {α : Type} {r : EStateM.Result Stop (State ω) α} (h : Forward s t)
    (hr : Proceeds t r) : Proceeds s r := by
  apply Post.mono hr
  · intro a u hu
    exact h.trans hu
  · intro e u hu
    exact hu.of_ahead h.cursor

theorem Safe.pure (a : α) : Safe n (pure a : Parser ω α) := fun _ hs => Forward.refl hs

theorem Safe.reject : Safe n (reject : Parser ω α) := fun _ hs => ⟨.refl hs.valid, hs.settled⟩

theorem Safe.bind {m : Parser ω α} {f : α → Parser ω β} (h : Safe n m) (hf : ∀ a, Safe n (f a)) :
    Safe n (m >>= f) := by
  intro s hs
  apply Post.bind (h s hs)
  intro a t _ ht
  exact ht.proceeds (hf a t (ht.sound hs))

theorem Safe.map {m : Parser ω α} (h : Safe n m) (f : α → β) : Safe n (f <$> m) :=
  fun s hs => Post.map (h s hs)

end Openings

section Steps

/-- Only the graph has changed. -/
structure Kept (s t : State ω) : Prop where
  cursor : t.cursor = s.cursor
  nextReference : t.nextReference = s.nextReference
  opened : t.opened = s.opened

theorem Kept.settled (h : Kept s t) (hs : s.Settled) : t.Settled := by
  rw [State.Settled, h.opened]
  exact hs

theorem Kept.forward (h : Kept s t) (hs : Sound n s) : Forward s t := by
  have hcursor := h.cursor
  have hnext := h.nextReference
  constructor
  · rw [hcursor]
    exact .refl hs.valid
  · exact hnext.ge
  · rw [hcursor, hnext]
  · exact h.settled hs.settled

theorem building_post (m : Building ω α) (s : State ω) :
    Post (fun _ t => Kept s t) (fun e t => e = .rejected ∧ Kept s t) (building m s) := by
  rw [building]
  cases m s.graph with
  | ok a g => exact ⟨rfl, rfl, rfl⟩
  | error e g => exact ⟨rfl, rfl, rfl, rfl⟩

theorem Safe.building (m : Building ω α) : Safe n (building m) := by
  intro s hs
  apply (building_post m s).mono
  · intro a t ht
    exact ht.forward hs
  · rintro e t ⟨rfl, ht⟩
    exact ⟨(ht.forward hs).cursor, ht.settled hs.settled⟩

theorem building_settles {s t : State ω} (h : Ahead s.cursor t.cursor) (ht : t.Settled)
    (m : Building ω α) :
    Post (fun _ u => Ahead s.cursor u.cursor ∧ u.Settled) (Fails s) (building m t) := by
  apply (building_post m t).mono
  · intro a u hu
    exact ⟨by rw [hu.cursor]; exact h, hu.settled ht⟩
  · rintro e u ⟨rfl, hu⟩
    exact ⟨by rw [hu.cursor]; exact h, hu.settled ht⟩

theorem building_bind {s t : State ω} {m : Building ω α} {f : α → Parser ω β}
    {Q : β → State ω → Prop} (h : Ahead s.cursor t.cursor) (ht : t.Settled)
    (hf : ∀ a u, Kept t u → Post Q (Fails s) (f a u)) :
    Post Q (Fails s) ((building m >>= f) t) := by
  apply Post.bind (R := fun _ u => Kept t u)
  · apply (building_post m t).mono
    · intro a u hu
      exact hu
    · rintro e u ⟨rfl, hu⟩
      exact ⟨by rw [hu.cursor]; exact h, hu.settled ht⟩
  · intro a u _ hu
    exact hf a u hu

theorem reading_post {m : Reader α} {Q : α → Cursor → Prop} {s : State ω}
    (h : Post (fun a d => Ahead s.cursor d ∧ Q a d) (fun e d => e = .rejected ∧ Ahead s.cursor d)
      (m s.cursor))
    (hs : s.Settled) :
    Post (fun a t => Forward s t ∧ t.nextReference = s.nextReference ∧ Q a t.cursor ∧
      m s.cursor = .ok a t.cursor) (Fails s) (reading m s) := by
  rw [reading]
  cases hrun : m s.cursor with
  | ok a c =>
    rw [hrun] at h
    have hslots := Nat.add_le_add_left h.1.left_le s.nextReference
    exact ⟨⟨h.1, le_rfl, hslots, hs⟩, rfl, h.2, rfl⟩
  | error e c =>
    rw [hrun] at h
    obtain ⟨rfl, hahead⟩ := h
    exact ⟨hahead, hs⟩

theorem Reads.post {m : Reader α} {Q : Cursor → α → Cursor → Prop} {s : State ω} (h : Reads m Q)
    (hs : Sound n s) :
    Post (fun a t => Forward s t ∧ t.nextReference = s.nextReference ∧ Q s.cursor a t.cursor ∧
      m s.cursor = .ok a t.cursor) (Fails s) (reading m s) :=
  reading_post (h s.cursor hs.valid) hs.settled

theorem Safe.reading {m : Reader α} (h : Stays m) : Safe n (reading m : Parser ω α) := by
  intro s hs
  apply (h.post hs).mono
  · intro a t ht
    exact ht.1
  · intro e t ht
    exact ht

theorem Safe.reading_building {m : Reader α} (h : Stays m) (f : α → Building ω β) (g : β → γ) :
    Safe n (do
      let a ← Unserialize.reading m
      let b ← Unserialize.building (f a)
      return g b) := by
  apply (Safe.reading h).bind
  intro a
  apply (Safe.building _).bind
  intro b
  exact .pure (g b)

/-- The opening is noted before the capacity is refused. -/
theorem reserve_proceeds {declarer : Declarer} {start : Cursor} {count : Nat} (hs : Sound n s)
    (hdeclared : Opening.Declared ⟨declarer, start, count, s.cursor.left⟩) :
    Proceeds s (reserve declarer start count s) := by
  apply Post.modify_bind
  by_cases hcapacity : isizeMax < count * entryBytes
  · rw [if_pos hcapacity]
    constructor
    · rfl
    constructor
    · intro o ho
      cases ho with
      | head => exact hdeclared
      | tail _ ho => exact (hs.settled o ho).1
    · exact ⟨_, List.mem_cons_self, Nat.not_le.mpr hcapacity⟩
  · rw [if_neg hcapacity]
    have hsettled : ∀ o ∈ (⟨declarer, start, count, s.cursor.left⟩ : Opening) :: s.opened,
        o.Declared ∧ o.Allotted := by
      intro o ho
      cases ho with
      | head => exact ⟨hdeclared, Nat.not_lt.mp hcapacity⟩
      | tail _ ho => exact hs.settled o ho
    exact ⟨.refl hs.valid, le_rfl, le_rfl, hsettled⟩

/-- A rejection in `m` leaves the parser where it may clean up. -/
theorem onReject_post {m : Parser ω α} {cleanup : Parser ω Unit} {Q : α → State ω → Prop}
    (h : Post Q (Fails s) (m t))
    (hcleanup : ∀ u, Ahead s.cursor u.cursor → u.Settled →
      Post (fun _ v => Ahead s.cursor v.cursor ∧ v.Settled) (Fails s) (cleanup u)) :
    Post Q (Fails s) (onReject m cleanup t) := by
  rw [onReject]
  cases hrun : m t with
  | ok a u =>
    rw [hrun] at h
    exact h
  | error e u =>
    rw [hrun] at h
    cases e with
    | rejected =>
      apply (hcleanup u h.1 h.2).bind
      intro _ v _ hv
      exact hv
    | fault f => exact h

end Steps

section Members

variable {value : Parser ω Val}

theorem arrayMembers_safe (hvalue : Safe n value) (count : Nat) (array : Entries) :
    Safe n (arrayMembers value count array) := by
  induction count generalizing array with
  | zero => exact .pure array
  | succ count ih =>
    apply (Safe.reading key_stays).bind
    intro key
    apply hvalue.bind
    intro member
    exact ih _

theorem objectMembers_safe (hvalue : Safe n value) (hasHook : Bool) (count : Nat)
    (properties : Entries) (names : List Name) :
    Safe n (objectMembers hasHook value count properties names) := by
  induction count generalizing properties names with
  | zero => exact .pure _
  | succ count ih =>
    apply (Safe.reading key_stays).bind
    intro key
    apply hvalue.bind
    intro member
    exact ih _ _

theorem parseArray_safe (hvalue : Safe n value) : Safe n (parseArray value) := by
  intro s hs
  apply Post.get_bind
  apply (arrayHeader_stays.post hs).bind
  rintro length t - ⟨hforward, -, -, hheader⟩
  have ht := hforward.sound hs
  apply hforward.proceeds
  have hdeclared : Opening.Declared ⟨.array, s.cursor, length, t.cursor.left⟩ :=
    ⟨t.cursor, hheader, rfl⟩
  apply Post.bind (reserve_proceeds ht hdeclared)
  intro _ u _ hu
  have hmembers : Safe n (do
      let array ← arrayMembers value length []
      reading (expect (ascii '}'))
      return Val.array array : Parser ω Val) := by
    apply (arrayMembers_safe hvalue length []).bind
    intro array
    apply (Safe.reading (expect_stays _)).bind
    intro _
    exact .pure _
  exact hu.proceeds (hmembers u (hu.sound ht))

theorem objectCount_eq (h : objectHeader start = .ok header d) :
    Declarer.object.count start = .ok header.2 d := by
  simp only [Declarer.count, Functor.map, EStateM.map, h]

variable (env : Environment ω) (allowed : AllowedClasses)

/-- The object after its count has been reserved. -/
theorem objectBody_safe (hvalue : Safe n value) (className : Name) (propertyCount id : Nat)
    (hasHook : Bool) : Safe n (do
      let (properties, names) ← objectMembers hasHook value propertyCount [] []
      let malformedClose ← reading closing
      if malformedClose then building (reportDiagnostic env)
      let hydrated ←
        building (hydrate env allowed className id hasHook malformedClose properties names)
      building (rejectRaised env)
      if malformedClose then reject else return Val.object hydrated : Parser ω Val) := by
  apply (objectMembers_safe hvalue hasHook propertyCount [] []).bind
  rintro ⟨properties, names⟩
  apply (Safe.reading closing_stays).bind
  intro malformedClose
  cases malformedClose with
  | false =>
    apply (Safe.building _).bind
    intro hydrated
    apply (Safe.building _).bind
    intro _
    exact .pure _
  | true =>
    apply (Safe.building _).bind
    intro _
    apply (Safe.building _).bind
    intro hydrated
    apply (Safe.building _).bind
    intro _
    exact .reject

theorem parseObject_safe (hvalue : Safe n value) (reference : Nat) :
    Safe n (parseObject env allowed value reference) := by
  intro s hs
  apply Post.get_bind
  apply (objectHeader_stays.post hs).bind
  rintro header t - ⟨hforward, -, -, hheader⟩
  have ht := hforward.sound hs
  apply hforward.proceeds
  apply building_bind (.refl ht.valid) ht.settled
  intro prepared u hu
  have hsound := (hu.forward ht).sound ht
  have hdeclared : Opening.Declared ⟨.object, s.cursor, header.2, u.cursor.left⟩ :=
    ⟨t.cursor, objectCount_eq hheader, by rw [hu.cursor]⟩
  apply (hu.forward ht).proceeds
  apply Post.bind (reserve_proceeds hsound hdeclared)
  intro _ v _ hv
  apply hv.proceeds
  exact objectBody_safe env allowed hvalue _ _ _ _ v (hv.sound hsound)

end Members

end Rphp.Stdlib.Unserialize
