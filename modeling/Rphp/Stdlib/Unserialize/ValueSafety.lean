import Rphp.Stdlib.Unserialize.ParserSafety

namespace Rphp.Stdlib.Unserialize
open Rphp.Lib
set_option autoImplicit true

/-! The payloads of native containers, which are parsed in place of the input. -/

section Payloads

variable {value : Parser ω Val} (env : Environment ω) (allowed : AllowedClasses)

theorem reading_eq {m : Reader α} {s : State ω} (h : m s.cursor = .ok a c) :
    reading m s = .ok a { s with cursor := c } := by
  rw [reading, h]

theorem restoreBacking_safe (hvalue : Safe n value) (id : Nat) (flags : I64) :
    Safe n (restoreBacking env value id flags) := by
  rw [restoreBacking]
  by_cases hself : hasSelfBacking flags
  · rw [if_pos hself]
    exact .building _
  · rw [if_neg hself]
    apply (Safe.reading peek_stays).bind
    intro tag
    by_cases htag : isBackingTag tag
    · rw [if_pos htag]
      apply hvalue.bind
      intro storage
      apply (Safe.building _).bind
      intro _
      exact .reading (expect_stays _)
    · rw [if_neg htag]
      exact .reject

theorem arrayWrapperMembers_safe (hvalue : Safe n value) (id : Nat) : Safe n (do
      let flags ← building (longOf (← value))
      restoreBacking env value id flags
      let membersTag ← reading membersHeader
      let members ← building (membersOf membersTag (← value))
      building (restoreLegacyMembers env id members)
      building (rejectRaised env) : Parser ω Unit) := by
  apply hvalue.bind
  intro flags
  apply (Safe.building _).bind
  intro flags
  apply (restoreBacking_safe env hvalue id flags).bind
  intro _
  apply (Safe.reading membersHeader_stays).bind
  intro membersTag
  apply hvalue.bind
  intro members
  apply (Safe.building _).bind
  intro members
  apply (Safe.building _).bind
  intro _
  exact .building _

theorem arrayWrapperPayload_proceeds (hvalue : Safe n value) (id : Nat) (hs : Sound n s)
    (hstart : s.cursor.position = 0) : Proceeds s (arrayWrapperPayload env value id s) := by
  apply Post.get_bind
  by_cases hempty : s.cursor.input = []
  · rw [if_pos hempty]
    exact Safe.pure _ s hs
  · rw [if_neg hempty]
    apply building_bind (.refl hs.valid) hs.settled
    intro refused t ht
    apply (ht.forward hs).proceeds
    have hsound := (ht.forward hs).sound hs
    by_cases hrefused : refused
    · rw [if_pos hrefused]
      exact Safe.reject t hsound
    · rw [if_neg hrefused]
      by_cases hmagic : (name "x:").isPrefixOf s.cursor.input
      · have hlength : 2 ≤ t.cursor.input.length := by
          rw [ht.cursor]
          exact (List.isPrefixOf_iff_prefix.mp hmagic).length_le
        have hmoved : Ahead t.cursor ⟨t.cursor.input, 2⟩ :=
          ahead_of_le (by rw [ht.cursor, hstart]; exact Nat.zero_le 2) hlength
        have hforward : Forward t { t with cursor := ⟨t.cursor.input, 2⟩ } :=
          ⟨hmoved, le_rfl, Nat.add_le_add_left hmoved.left_le _, hsound.settled⟩
        rw [if_neg (by rw [hmagic]; exact Bool.false_ne_true)]
        apply Post.bind_ok (reading_eq (moveTo_eq 2 t.cursor))
        apply hforward.proceeds
        exact arrayWrapperMembers_safe env hvalue id _ (hforward.sound hsound)
      · rw [if_pos (by rw [Bool.eq_false_of_not_eq_true hmagic]; rfl)]
        exact Safe.reject t hsound

/-- The cursor goes back no further than to where the value began. -/
theorem rewind_post {s t : State ω} (h : Ahead s.cursor t.cursor) (ht : t.Settled) :
    Post (fun _ u => Ahead s.cursor u.cursor ∧ u.Settled) (Fails s)
      (rewind s.cursor.position t) := by
  have hback : Post (fun _ u => Ahead s.cursor u.cursor ∧ u.Settled) (Fails s)
      (reading (moveTo s.cursor.position) t) := by
    rw [reading_eq (moveTo_eq s.cursor.position t.cursor)]
    exact ⟨⟨h.input, le_rfl, h.le.trans h.inside⟩, ht⟩
  have hreference : Post (fun _ u => Ahead s.cursor u.cursor ∧ u.Settled) (Fails s)
      ((if t.cursor.position = s.cursor.position then reading (moveTo s.cursor.position)
      else do
        let last ← reading (subtract t.cursor.position 1)
        if t.cursor.input[last]? = some (ascii ';') then return
        else reading (moveTo s.cursor.position) : Parser ω Unit) t) := by
    by_cases hsame : t.cursor.position = s.cursor.position
    · rw [if_pos hsame]
      exact hback
    · have hle := h.le
      rw [if_neg hsame]
      apply Post.bind_ok (reading_eq (subtract_eq (by omega) t.cursor))
      by_cases hlast : t.cursor.input[t.cursor.position - 1]? = some (ascii ';')
      · rw [if_pos hlast]
        exact ⟨h, ht⟩
      · rw [if_neg hlast]
        exact hback
  apply Post.get_bind
  cases t.cursor.input[s.cursor.position]?.bind Tag.ofByte with
  | none => exact hback
  | some tag =>
    cases tag with
    | null | bool | long | double => exact hback
    | lowercase | uppercase => exact hreference
    | string | array | object | custom | enum => exact ⟨h, ht⟩

theorem dequeValue_safe (hvalue : Safe n value) : Safe n (dequeValue value) := by
  intro s hs
  apply Post.get_bind
  apply onReject_post (hvalue s hs)
  intro t ht hsettled
  exact rewind_post ht hsettled

theorem dequeElements_proceeds (hvalue : Safe n value) (id : Nat) (fuel : Nat) :
    ∀ s : State ω, Sound n s → s.cursor.left ≤ fuel →
      Proceeds s (dequeElements env value id fuel s) := by
  induction fuel with
  | zero =>
    intro s hs hleft
    apply Post.get_bind
    rw [if_neg (by rw [Cursor.left] at hleft; omega)]
    exact Safe.pure _ s hs
  | succ fuel ih =>
    intro s hs hleft
    apply Post.get_bind
    by_cases hmore : s.cursor.position < s.cursor.input.length
    · rw [if_pos hmore]
      apply (reading_post (colon_post hs.valid hmore) hs.settled).bind
      rintro _ t - ⟨ht, -, hcolon, -⟩
      apply ht.proceeds
      apply Post.bind (dequeValue_safe hvalue t (ht.sound hs))
      intro member u _ hu
      have hsound := hu.sound (ht.sound hs)
      apply hu.proceeds
      apply building_bind (.refl hsound.valid) hsound.settled
      intro _ v hv
      have hforward := hv.forward hsound
      apply hforward.proceeds
      apply ih v (hforward.sound hsound)
      have hleft' := hu.cursor.left_le
      rw [hv.cursor]
      omega
    · rw [if_neg hmore]
      exact Safe.pure _ s hs

theorem dequePayload_safe (hvalue : Safe n value) (id : Nat) :
    Safe n (dequePayload env value id) := by
  intro s hs
  apply Post.get_bind
  by_cases hempty : s.cursor.input = []
  · rw [if_pos hempty]
    exact Safe.pure _ s hs
  · rw [if_neg hempty]
    have helements : Safe n (do
        let s ← get
        dequeElements env value id s.cursor.left : Parser ω Unit) := by
      intro t ht
      exact dequeElements_proceeds env hvalue id _ t ht le_rfl
    have hpayload : Safe n (do
        building (clearDeque env id)
        building (rejectRaised env)
        let flags ← dequeValue value
        building (setDequeFlags id flags)
        let s ← get
        dequeElements env value id s.cursor.left : Parser ω Unit) := by
      apply (Safe.building _).bind
      intro _
      apply (Safe.building _).bind
      intro _
      apply (dequeValue_safe hvalue).bind
      intro flags
      apply (Safe.building _).bind
      intro _
      exact helements
    exact hpayload s hs

end Payloads

section Embedding

variable {value : Parser ω Val} (env : Environment ω) (allowed : AllowedClasses)

/-- What a payload of `k` bytes leaves of the state around it: every slot takes one of them. -/
structure Within (k : Nat) (s t : State ω) : Prop where
  cursor : t.cursor = s.cursor
  slots_le : s.nextReference ≤ t.nextReference
  slots : t.nextReference ≤ s.nextReference + k
  settled : t.Settled

theorem Kept.within (h : Kept s t) (hs : s.Settled) : Within k s t :=
  ⟨h.cursor, h.nextReference.ge, h.nextReference.le.trans (Nat.le_add_right _ _), h.settled hs⟩

theorem Kept.trans_within (h : Kept s t) (h' : Within k t u) : Within k s u :=
  ⟨h'.cursor.trans h.cursor, h.nextReference ▸ h'.slots_le, h.nextReference ▸ h'.slots, h'.settled⟩

theorem Within.refl (hs : s.Settled) : Within k s s :=
  Kept.within ⟨rfl, rfl, rfl⟩ hs

/-- A payload is parsed on its own, and only its slots count on. -/
theorem withInput_post {payload : List UInt8} {m : Parser ω α} (hs : Sound n s)
    (hpayload : payload.length ≤ n)
    (hslots : s.nextReference + payload.length ≤ isizeMax + 1)
    (haddressable : payload.length ≤ isizeMax)
    (hm : ∀ t, Sound n t → t.cursor.position = 0 → Proceeds t (m t)) :
    Post (fun _ t => Within payload.length s t) (Fails s) (withInput payload m s) := by
  have hinner := hm { s with cursor := ⟨payload, 0⟩ }
    ⟨⟨Nat.zero_le _, haddressable⟩, hpayload, hslots, hs.settled⟩ rfl
  rw [withInput]
  cases hrun : m { s with cursor := ⟨payload, 0⟩ } with
  | ok a t =>
    rw [hrun] at hinner
    exact ⟨rfl, hinner.slots_le, (Nat.le_add_right _ _).trans hinner.slots, hinner.settled⟩
  | error e t =>
    rw [hrun] at hinner
    cases e with
    | rejected => exact ⟨.refl hs.valid, hinner.2⟩
    | fault f => exact hinner

theorem restoreCustom_post (hvalue : Safe n value) (id : Nat) {payload : List UInt8}
    (hs : Sound n s) (hpayload : payload.length ≤ n)
    (hslots : s.nextReference + payload.length ≤ isizeMax + 1)
    (haddressable : payload.length ≤ isizeMax) :
    Post (fun _ t => Within payload.length s t) (Fails s)
      (restoreCustom env value id payload s) := by
  apply Post.get_bind
  cases s.graph.objects[id]?.map fun object =>
      env.unserializeMethod s.graph.world object.className with
  | none => exact .refl hs.settled
  | some method =>
    cases method with
    | none => exact .refl hs.settled
    | user =>
      apply building_bind (.refl hs.valid) hs.settled
      intro restored t ht
      by_cases hrestored : restored
      · rw [if_pos hrestored]
        exact ht.within hs.settled
      · rw [if_neg hrestored]
        exact ⟨(ht.forward hs).cursor, ht.settled hs.settled⟩
    | deque =>
      apply withInput_post hs hpayload hslots haddressable
      intro t ht _
      exact dequePayload_safe env hvalue id t ht
    | arrayWrapper =>
      apply withInput_post hs hpayload hslots haddressable
      intro t ht hstart
      exact arrayWrapperPayload_proceeds env hvalue id ht hstart

theorem parseCustom_safe (hvalue : Safe n value) (reference : Nat) :
    Safe n (parseCustom env allowed value reference) := by
  intro s hs
  apply (customHeader_reads.post hs).bind
  rintro header t - ⟨ht, hnext, hheader, -⟩
  have hsound := ht.sound hs
  have hbytes := hs.left
  have hslots := hs.slots
  have haddressable := hs.valid.addressable
  have hleft : s.cursor.left ≤ s.cursor.input.length := Nat.sub_le _ _
  have hforward : ∀ u : State ω, Within header.2.length t u → Forward s u := by
    intro u hu
    have hslots' := hu.slots
    constructor
    · rw [hu.cursor]
      exact ht.cursor
    · exact ht.slots_le.trans hu.slots_le
    · rw [hu.cursor]
      omega
    · exact hu.settled
  have hreturns : ∀ (id : Nat) (u : State ω), Within header.2.length t u →
      Proceeds s ((do building (rejectRaised env); return Val.object id : Parser ω Val) u) := by
    intro id u hu
    have hrest : Safe n (do building (rejectRaised env); return Val.object id : Parser ω Val) := by
      apply (Safe.building _).bind
      intro _
      exact .pure _
    exact (hforward u hu).proceeds (hrest u ((hforward u hu).sound hs))
  apply building_bind ht.cursor ht.settled
  intro id u hu
  have hkept := (hu.forward hsound).sound hsound
  by_cases hallowed : allowed.allows header.1
  · rw [if_pos hallowed]
    apply Post.bind (R := fun _ v => Within header.2.length u v)
    · apply (restoreCustom_post env hvalue id hkept ?_ ?_ ?_).mono
      · intro _ v hv
        exact hv
      · intro e v hv
        exact (hv.of_ahead (hu.forward hsound).cursor).of_ahead ht.cursor
      · omega
      · rw [hu.nextReference, hnext]
        omega
      · omega
    · intro _ v _ hv
      exact hreturns id v (hu.trans_within hv)
  · rw [if_neg hallowed]
    exact hreturns id u (hu.within ht.settled)

end Embedding

/-! Values of any nesting, and what a whole run promises. -/

section Values

variable {value : Parser ω Val} (env : Environment ω) (allowed : AllowedClasses)

theorem parseValueTag_safe (uppercase : Bool) (hvalue : Safe n value) (tag : UInt8)
    (reference : Nat) : Safe n (parseValueTag env allowed uppercase value tag reference) := by
  rw [parseValueTag]
  cases Tag.ofByte tag with
  | none => exact .reject
  | some tag =>
    cases tag with
    | null => exact (Safe.reading parseNull_stays).map _
    | bool => exact (Safe.reading parseBool_stays).map _
    | long => exact (Safe.reading parseLong_stays).map _
    | double => exact (Safe.reading (parseDouble_stays env)).map _
    | string => exact (Safe.reading parseString_stays).map _
    | array => exact (parseArray_safe hvalue).map _
    | object => exact (parseObject_safe env allowed hvalue reference).map _
    | custom => exact (parseCustom_safe env allowed hvalue reference).map _
    | enum => exact .reading_building enumName_stays _ _
    | lowercase => exact .reading_building referenceTarget_stays _ _
    | uppercase => exact .reading_building referenceTarget_stays _ _

theorem nextSlot_eq {s : State ω} (hs : Sound n s) :
    nextSlot s = .ok s.nextReference { s with nextReference := s.nextReference + 1 } := by
  have hfits : s.nextReference + 1 ≤ usizeMax := by
    have hslots := hs.slots
    simp only [isizeMax, usizeMax] at *
    omega
  have hadd : add s.nextReference 1 s.cursor = .ok (s.nextReference + 1) s.cursor := by
    rw [add, if_pos hfits]
    rfl
  simp only [nextSlot, get_bind_apply]
  simp only [bind, EStateM.bind, reading_eq hadd]
  rfl

theorem releaseSlot_eq {s : State ω} (h : 0 < s.nextReference) :
    releaseSlot s = .ok ⟨⟩ { s with nextReference := s.nextReference - 1 } := by
  simp only [releaseSlot, get_bind_apply]
  simp only [bind, EStateM.bind, reading_eq (subtract_eq h s.cursor)]
  rfl

/-- A value has taken its slot and its tag. -/
structure Entered (n : Nat) (s t : State ω) : Prop where
  forward : Forward s t
  slot : s.nextReference < t.nextReference
  left : t.cursor.left < n

/-- The slot is paid for with the tag. -/
theorem tag_post (hs : Sound n s) (hcursor : t.cursor = s.cursor)
    (hnext : t.nextReference = s.nextReference + 1) (hsettled : t.Settled) :
    Post (fun _ u => Entered n s u) (Fails s) (reading byte t) := by
  have hbyte := byte_reads s.cursor hs.valid
  have hleft := hs.left
  rw [reading, hcursor]
  cases hrun : byte s.cursor with
  | ok tag c =>
    rw [hrun] at hbyte
    obtain ⟨hahead, hconsumed⟩ := hbyte
    refine ⟨⟨hahead, ?_, ?_, hsettled⟩, ?_, ?_⟩
    · exact hnext ▸ Nat.le_succ _
    · simp only [hnext]
      omega
    · exact hnext ▸ Nat.lt_succ_self _
    · simp only
      omega
  | error e c =>
    rw [hrun] at hbyte
    obtain ⟨rfl, hahead⟩ := hbyte
    exact ⟨hahead, hsettled⟩

theorem Entered.sound (h : Entered n s t) (hs : Sound n s) : Sound t.cursor.left t := by
  have hsound := h.forward.sound hs
  exact ⟨hsound.valid, le_rfl, hsound.slots, hsound.settled⟩

theorem valueWithoutUppercaseReferences_safe (hvalue : ∀ m < n, Safe m value) :
    Safe n (valueWithoutUppercaseReferences env allowed value) := by
  intro s hs
  apply Post.bind_ok (nextSlot_eq hs)
  have hentered := tag_post (t := { s with nextReference := s.nextReference + 1 }) hs rfl rfl
    hs.settled
  apply hentered.bind
  intro tag t _ ht
  have hsound := ht.sound hs
  apply ht.forward.proceeds
  apply Post.bind (parseValueTag_safe env allowed false (hvalue _ ht.left) tag _ t hsound)
  rintro ⟨decoded, _⟩ u _ hu
  have hpublished : Safe t.cursor.left (do
      building (modify (·.publishIfAbsent s.nextReference decoded))
      return decoded : Parser ω Val) :=
    (Safe.building _).bind fun _ => .pure decoded
  exact hu.proceeds (hpublished u (hu.sound hsound))

theorem discard_post {s t : State ω} (hs : Sound n s) (h : Ahead s.cursor t.cursor)
    (ht : t.Settled) (reference : Nat) :
    Post (fun _ u => Ahead s.cursor u.cursor ∧ u.Settled) (Fails s)
      (discard s.cursor.position reference t) := by
  apply building_bind h ht
  intro _ u hu
  have hahead : Ahead s.cursor u.cursor := by
    rw [hu.cursor]
    exact h
  have hvalid := hahead.valid hs.valid
  have hfits : s.cursor.position + 1 ≤ u.cursor.input.length + 1 :=
    Nat.succ_le_succ (hahead.le.trans hahead.inside)
  apply Post.bind_ok (reading_eq (add_eq hvalid hfits))
  exact ⟨hahead, hu.settled ht⟩

theorem valueWithUppercaseReferences_safe (targets : List Nat) (hvalue : ∀ m < n, Safe m value) :
    Safe n (valueWithUppercaseReferences env allowed targets value) := by
  intro s hs
  apply Post.get_bind
  apply Post.bind_ok (nextSlot_eq hs)
  have hclaimed : Ahead s.cursor { s with nextReference := s.nextReference + 1 }.cursor :=
    .refl hs.valid
  apply building_bind hclaimed hs.settled
  intro _ t ht
  apply Post.bind (R := fun _ u => Entered n s u)
  · apply onReject_post (tag_post hs ht.cursor ht.nextReference (ht.settled hs.settled))
    intro u hu hsettled
    exact building_settles hu hsettled _
  · intro tag u _ hu
    have hsound := hu.sound hs
    apply Post.bind (R := fun _ v => Forward u v)
    · apply onReject_post
      · apply (parseValueTag_safe env allowed true (hvalue _ hu.left) tag _ u hsound).mono
        · intro a v hv
          exact hv
        · intro e v hv
          exact hv.of_ahead hu.forward.cursor
      · intro v hv hsettled
        exact discard_post hs hv hsettled _
    · rintro ⟨decoded, aliases⟩ v _ hv
      have hforward := hu.forward.trans hv
      have hslot := hu.slot.trans_le hv.slots_le
      cases aliases with
      | true =>
        apply building_bind hforward.cursor hforward.settled
        intro _ w hw
        have hclaimed : s.nextReference < w.nextReference := by
          rw [hw.nextReference]
          exact hslot
        have hslots := (hforward.trans (hw.forward (hforward.sound hs))).slots
        apply Post.bind_ok (releaseSlot_eq (Nat.zero_lt_of_lt hclaimed))
        refine ⟨?_, Nat.le_sub_one_of_lt hclaimed, ?_, hw.settled hforward.settled⟩
        · simp only [hw.cursor]
          exact hforward.cursor
        · simp only
          omega
      | false =>
        apply Post.get_bind
        apply building_bind hforward.cursor hforward.settled
        intro _ w hw
        exact hforward.trans (hw.forward (hforward.sound hs))

theorem valueMode_safe (uppercase : Bool) (targets : List Nat) (fuel : Nat) :
    ∀ n < fuel, Safe n (valueMode env allowed uppercase targets fuel) := by
  induction fuel with
  | zero =>
    intro n hn
    exact absurd hn (Nat.not_lt_zero n)
  | succ fuel ih =>
    intro n hn
    have hvalue : ∀ m < n, Safe m (valueMode env allowed uppercase targets fuel) := by
      intro m hm
      exact ih m (by omega)
    rw [valueMode]
    cases uppercase with
    | true => exact valueWithUppercaseReferences_safe env allowed targets hvalue
    | false => exact valueWithoutUppercaseReferences_safe env allowed hvalue

end Values

section Runs

/-- The strings that fit in memory. -/
abbrev ByteString := { input : List UInt8 // input.length ≤ isizeMax }

def finalState : EStateM.Result ε σ α → σ
  | .ok _ s => s
  | .error _ s => s

/-- The parser ends with a value or a rejection, and never reserves more entries than there are
bytes left. -/
structure Restrained (r : EStateM.Result Stop (State ω) α) : Prop where
  ends : ∀ f s, r ≠ .error (.fault f) s
  reserves : ∀ o ∈ (finalState r).opened, o.reserved ≤ o.left

/-- The count in the header of the value fits the bytes behind it, and an allocation. -/
def Opening.Sized (o : Opening) : Prop :=
  ∀ count d, o.declarer.count o.start = .ok count d →
    count ≤ d.left ∧ count * entryBytes ≤ isizeMax

variable {r : EStateM.Result Stop (State ω) α}

theorem Opening.Declared.sized_iff {o : Opening} (h : o.Declared) :
    o.Sized ↔ o.reserved ≤ o.left ∧ o.Allotted := by
  obtain ⟨d, hcount, hleft⟩ := h
  rw [Opening.Sized, hcount, ← hleft]
  constructor
  · intro hsized
    exact hsized _ d rfl
  · intro hfits count e heq
    cases heq
    exact hfits

theorem Proceeds.fault_eq (h : Proceeds s r) (hr : r = .error (.fault f) t) : f = .capacity := by
  rw [hr] at h
  exact h.1

theorem Proceeds.declared (h : Proceeds s r) : ∀ o ∈ (finalState r).opened, o.Declared := by
  intro o ho
  cases r with
  | ok a t => exact (h.settled o ho).1
  | error e t =>
    cases e with
    | rejected => exact (h.2 o ho).1
    | fault f => exact h.2.1 o ho

/-- Without a fault every count that was declared could be allotted. -/
theorem Proceeds.allotted_iff (h : Proceeds s r) :
    (∀ f t, r ≠ .error (.fault f) t) ↔ ∀ o ∈ (finalState r).opened, o.Allotted := by
  cases r with
  | ok a t =>
    constructor
    · intro _ o ho
      exact (h.settled o ho).2
    · intro _ f u heq
      cases heq
  | error e t =>
    cases e with
    | rejected =>
      constructor
      · intro _ o ho
        exact (h.2 o ho).2
      · intro _ f u heq
        cases heq
    | fault f =>
      obtain ⟨-, -, o, ho, hover⟩ := h
      constructor
      · intro hends
        exact absurd rfl (hends f t)
      · intro hallotted
        exact absurd (hallotted o ho) hover

theorem Proceeds.restrained_iff (h : Proceeds s r) :
    Restrained r ↔ ∀ o ∈ (finalState r).opened, o.Sized := by
  constructor
  · intro hr o ho
    exact (h.declared o ho).sized_iff.mpr ⟨hr.reserves o ho, h.allotted_iff.mp hr.ends o ho⟩
  · intro hsized
    constructor
    · apply h.allotted_iff.mpr
      intro o ho
      exact ((h.declared o ho).sized_iff.mp (hsized o ho)).2
    · intro o ho
      exact ((h.declared o ho).sized_iff.mp (hsized o ho)).1

theorem parse_proceeds (env : Environment ω) (allowed : AllowedClasses) (targets : List Nat)
    (input : ByteString) (world : ω) :
    Proceeds (.start input.val world) (parse env allowed targets input.val world) := by
  have hsound : Sound input.val.length (State.start input.val world) :=
    ⟨⟨Nat.zero_le _, input.property⟩, le_rfl,
      by simp only [State.start, Cursor.left]; omega, fun o ho => by cases ho⟩
  exact valueMode_safe env allowed _ targets _ _ (Nat.lt_succ_self _) _ hsound

/-- The parser leaves no index, no slot and no nesting unguarded; only a declared count can make
it fault, and it reserves within the input exactly when every count fits. -/
theorem parse_restrained_iff (env : Environment ω) (allowed : AllowedClasses)
    (targets : List Nat) (input : ByteString) (world : ω) :
    (∀ f s, parse env allowed targets input.val world = .error (.fault f) s → f = .capacity) ∧
      (Restrained (parse env allowed targets input.val world) ↔
        ∀ o ∈ (finalState (parse env allowed targets input.val world)).opened, o.Sized) := by
  have hproceeds := parse_proceeds env allowed targets input world
  constructor
  · intro f s hfault
    exact hproceeds.fault_eq hfault
  · exact hproceeds.restrained_iff

/-- A world without classes. -/
def noClasses : Environment Unit where
  parseDouble _ := none
  allocateObject _ _ := (none, ⟨⟩)
  hasUnserializeHook _ _ := false
  callUnserializeHook _ _ _ := (true, ⟨⟩)
  reportDiagnostic _ := (true, ⟨⟩)
  isVirtualProperty _ _ _ := false
  prepareProperty _ _ _ _ _ := (.refused, ⟨⟩)
  enumCase _ _ _ := (none, ⟨⟩)
  raised _ := false
  unserializeMethod _ _ := .none
  callUnserialize _ _ _ := (true, ⟨⟩)
  rejectMutation _ _ := (false, ⟨⟩)
  admitStorage _ _ _ _ := (.fails, ⟨⟩)
  admitMember _ _ _ _ := (.fails, ⟨⟩)
  clearDeque _ _ := (true, ⟨⟩)

example : (match parse noClasses .all [] (name "a:1:\x7bs:1:\"k\";b:1;\x7d") () with
    | .ok (.array [(.string key, .scalar (.bool true))]) _ => key == [107]
    | _ => false) = true := by decide +kernel

/-- An array header on its own makes the parser panic. -/
theorem parse_not_restrained :
    ¬ Restrained (parse noClasses .all [] (name "a:9223372036854775807:\x7b") ()) := by
  intro h
  exact h.ends .capacity _ rfl

end Runs

end Rphp.Stdlib.Unserialize
