import Rphp.Jit.ShadowStores

namespace Rphp.Jit
open Rphp.Lib NativeStraightLongLoopConfig
set_option autoImplicit true

def blockStartsStep (config : NativeStraightLongLoopConfig) (starts : Nat → Bool) (index : Nat) :
    Nat → Bool :=
  match config.operations[index]? with
  | some (.branchUnless _ _ _ falseTarget) =>
    Function.update (Function.update starts (index + 1) true) falseTarget true
  | some (.jump target) => Function.update (Function.update starts (index + 1) true) target true
  | _ => starts

/-- The operations at which a basic block starts. -/
def straightLongStructuredBlockStarts (config : NativeStraightLongLoopConfig) : Nat → Bool :=
  (List.range config.operationCount).foldl (blockStartsStep config)
    (Function.update (fun _ => false) 0 true)

/-- The scan over the consumers of a slot, in index order, up to the first one that redefines it:
no consumer may read the slot except the operation after the producer in the same block. -/
def isLocalValue (config : NativeStraightLongLoopConfig) (blockStarts : Nat → Bool)
    (producer : Nat) (slot : Slot) : List Nat → Bool
  | [] => true
  | consumer :: consumers =>
    if slot ∈ config.inputMask consumer ∧
        (consumer ≠ producer + 1 ∨ blockStarts consumer = true) then
      false
    else if slot ∈ config.outputMask consumer then
      true
    else
      isLocalValue config blockStarts producer slot consumers

/-- The results of each operation that need no store in the shadow. -/
def straightLongStructuredLocalResidentOutputMasks (config : NativeStraightLongLoopConfig)
    (publicationMask carriedMask : Mask) (blockStarts : Nat → Bool) (producer : Nat) : Mask :=
  let candidates := config.shadowOutputMask producer &&& ~~~publicationMask &&& ~~~carriedMask
  (List.finRange 64).foldl (fun resident slot =>
    if slot ∈ candidates ∧ isLocalValue config blockStarts producer slot
        (List.range' (producer + 1) (config.operationCount - (producer + 1))) = true then
      resident ||| bit slot
    else
      resident) 0

/-- The masks that the emitter uses, with the block starts of the body itself. -/
def localResidentMasks (config : NativeStraightLongLoopConfig)
    (publicationMask carriedMask : Mask) (producer : Nat) : Mask :=
  straightLongStructuredLocalResidentOutputMasks config publicationMask carriedMask
    (straightLongStructuredBlockStarts config) producer

/-- On some execution path of the body an operation reads the value that the producer wrote. -/
def ReadsResult (config : NativeStraightLongLoopConfig) (producer : Nat) (slot : Slot)
    (reader : Nat) : Prop :=
  slot ∈ config.inputMask reader ∧
    ∃ pre mid, config.Path 0 (pre ++ producer :: mid) reader ∧
      ∀ x ∈ mid, slot ∉ config.shadowOutputMask x

/-- A marked value is read by the operation after its producer, in the same block, alone. -/
def MarkedReadsAreLocal (config : NativeStraightLongLoopConfig)
    (publicationMask carriedMask : Mask) : Prop :=
  ∀ producer slot, slot ∈ localResidentMasks config publicationMask carriedMask producer →
    ∀ reader, ReadsResult config producer slot reader →
      reader = producer + 1 ∧ straightLongStructuredBlockStarts config reader = false

/-- The emission that leaves out the marked stores and forwards within a block. -/
def Emission.localResident (config : NativeStraightLongLoopConfig)
    (publicationMask carriedMask : Mask) : Emission where
  keep index := ~~~localResidentMasks config publicationMask carriedMask index
  forward index := !straightLongStructuredBlockStarts config (index + 1)
  early := none

/-- Leaving out the marked stores gives every operation the same operands and leaves the same
values in the published slots. -/
def DroppedStoresAreUnseen (config : NativeStraightLongLoopConfig)
    (publicationMask carriedMask : Mask) : Prop :=
  ∀ (W : Type) (ctx : NativeContext W) (checked : Bool) (m : StraightMachine W),
    m.index = 0 → m.forwarded = 0 →
    let stored := StraightMachine.pass ctx checked config .canonical m
    let dropped := StraightMachine.pass ctx checked config
      (.localResident config publicationMask carriedMask) m
    dropped.log = stored.log ∧ dropped.exit = stored.exit ∧
      dropped.induction = stored.induction ∧ dropped.world = stored.world ∧
      ∀ slot ∈ publicationMask, dropped.shadow slot = stored.shadow slot

/-- A read that the scan misses: it stops at an operation that redefines the slot, and a path
leads around that operation to a reader. -/
def HidesRead (config : NativeStraightLongLoopConfig) (publicationMask carriedMask : Mask) :
    Prop :=
  ∃ producer redefinition reader slot,
    slot ∈ config.shadowOutputMask producer ∧ slot ∉ publicationMask ∧ slot ∉ carriedMask ∧
    producer < redefinition ∧ redefinition < reader ∧ slot ∈ config.outputMask redefinition ∧
    (∀ consumer, producer < consumer → consumer ≤ redefinition →
      slot ∈ config.inputMask consumer →
      consumer = producer + 1 ∧ straightLongStructuredBlockStarts config consumer = false) ∧
    ReadsResult config producer slot reader

/-! What the analyses compute. -/

section

variable {config : NativeStraightLongLoopConfig}

/-- The block starts that one operation makes. -/
def startsAfter (config : NativeStraightLongLoopConfig) (index : Nat) : List Nat :=
  match config.operations[index]? with
  | some (.branchUnless _ _ _ falseTarget) => [index + 1, falseTarget]
  | some (.jump target) => [index + 1, target]
  | _ => []

theorem foldl_blockStartsStep (indices : List Nat) (starts : Nat → Bool) (i : Nat) :
    indices.foldl (blockStartsStep config) starts i = true ↔
      starts i = true ∨ ∃ index ∈ indices, i ∈ startsAfter config index := by
  induction indices generalizing starts with
  | nil => simp
  | cons index indices ih =>
    have hstep : blockStartsStep config starts index i = true ↔
        starts i = true ∨ i ∈ startsAfter config index := by
      unfold blockStartsStep startsAfter
      cases config.operations[index]? with
      | none => simp
      | some operation => cases operation <;> simp [Function.update_apply] <;> tauto
    rw [List.foldl_cons, ih, hstep]
    simp only [List.mem_cons, exists_eq_or_imp, or_assoc]

/-- Only the operation in front of it leads to an operation inside a block. -/
theorem eq_succ_of_not_start (hs : straightLongStructuredBlockStarts config i = false)
    (h : i ∈ config.successors index) : i = index + 1 := by
  have hstart : i ∉ startsAfter config index := by
    intro hmem
    have hmarked : straightLongStructuredBlockStarts config i = true :=
      (foldl_blockStartsStep _ _ i).2
        (.inr ⟨index, List.mem_range.2 (lt_of_mem_successors h), hmem⟩)
    simp [hmarked] at hs
  unfold startsAfter at hstart
  unfold successors at h
  split at h <;> simp_all

/-- A read out of place: not by the operation after the producer in its block. -/
def StrayRead (config : NativeStraightLongLoopConfig) (blockStarts : Nat → Bool)
    (producer : Nat) (slot : Slot) (consumer : Nat) : Prop :=
  slot ∈ config.inputMask consumer ∧ (consumer ≠ producer + 1 ∨ blockStarts consumer = true)

/-- The scan accepts exactly if every read out of place comes after a redefinition. -/
theorem isLocalValue_range' (blockStarts : Nat → Bool) (producer : Nat) (slot : Slot)
    (start n : Nat) :
    isLocalValue config blockStarts producer slot (List.range' start n) = true ↔
      ∀ c, start ≤ c → c < start + n → StrayRead config blockStarts producer slot c →
        ∃ d, start ≤ d ∧ d < c ∧ slot ∈ config.outputMask d := by
  induction n generalizing start with
  | zero =>
    simp only [List.range'_zero, isLocalValue, true_iff]
    intro c hle hlt
    omega
  | succ n ih =>
    rw [List.range'_succ, isLocalValue]
    by_cases hstray : slot ∈ config.inputMask start ∧
        (start ≠ producer + 1 ∨ blockStarts start = true)
    · rw [if_pos hstray]
      simp only [Bool.false_eq_true, false_iff, not_forall]
      refine ⟨start, Nat.le_refl _, by omega, hstray, ?_⟩
      rintro ⟨d, hle, hlt, -⟩
      omega
    · rw [if_neg hstray]
      by_cases hout : slot ∈ config.outputMask start
      · simp only [hout, ↓reduceIte, true_iff]
        intro c hle hlt hc
        obtain rfl | hgt := Nat.eq_or_lt_of_le hle
        · exact absurd hc hstray
        · exact ⟨start, Nat.le_refl _, hgt, hout⟩
      · rw [if_neg hout, ih]
        constructor
        · intro h c hle hlt hc
          obtain rfl | hgt := Nat.eq_or_lt_of_le hle
          · exact absurd hc hstray
          · obtain ⟨d, hd, hdc, hmem⟩ := h c hgt (by omega) hc
            exact ⟨d, by omega, hdc, hmem⟩
        · intro h c hle hlt hc
          obtain ⟨d, hd, hdc, hmem⟩ := h c (by omega) (by omega) hc
          obtain rfl | hgt := Nat.eq_or_lt_of_le hd
          · exact absurd hmem hout
          · exact ⟨d, hgt, hdc, hmem⟩

theorem mem_foldl_or_bit {p : Slot → Prop} [DecidablePred p] (slots : List Slot) (mask : Mask)
    (slot : Slot) :
    slot ∈ slots.foldl (fun mask s => if p s then mask ||| bit s else mask) mask ↔
      slot ∈ mask ∨ slot ∈ slots ∧ p slot := by
  induction slots generalizing mask with
  | nil => simp
  | cons s slots ih =>
    rw [List.foldl_cons, ih, List.mem_cons]
    by_cases hp : p s
    · simp only [hp, ↓reduceIte, mem_or, mem_bit]
      constructor
      · rintro ((h | rfl) | h)
        · exact .inl h
        · exact .inr ⟨.inl rfl, hp⟩
        · exact .inr ⟨.inr h.1, h.2⟩
      · rintro (h | ⟨rfl | h, hslot⟩)
        · exact .inl (.inl h)
        · exact .inl (.inr rfl)
        · exact .inr ⟨h, hslot⟩
    · simp only [hp, ↓reduceIte]
      constructor
      · rintro (h | h)
        · exact .inl h
        · exact .inr ⟨.inr h.1, h.2⟩
      · rintro (h | ⟨rfl | h, hslot⟩)
        · exact .inl h
        · exact absurd hslot hp
        · exact .inr ⟨h, hslot⟩

theorem mem_localResidentMasks :
    slot ∈ localResidentMasks config publicationMask carriedMask producer ↔
      slot ∈ config.shadowOutputMask producer ∧ slot ∉ publicationMask ∧ slot ∉ carriedMask ∧
        ∀ c, producer < c → c < config.operationCount →
          StrayRead config (straightLongStructuredBlockStarts config) producer slot c →
            ∃ d, producer < d ∧ d < c ∧ slot ∈ config.outputMask d := by
  rw [localResidentMasks, straightLongStructuredLocalResidentOutputMasks, mem_foldl_or_bit,
    isLocalValue_range']
  simp only [BitVec.ofNat_eq_ofNat, not_mem_zero, List.mem_finRange, true_and, false_or, mem_and,
    mem_not, and_assoc]
  refine and_congr_right fun _ => and_congr_right fun _ => and_congr_right fun _ => ?_
  refine forall_congr' fun c => ⟨fun h hlt hc => h hlt (by omega), fun h hlt hc => h hlt (by omega)⟩

theorem ReadsResult.lt (hf : config.ForwardOnly) (h : ReadsResult config producer slot reader) :
    producer < reader := by
  obtain ⟨-, pre, mid, hp, -⟩ := h
  exact hp.lt_of_mem hf.forward (by simp)

/-- Marked values are read locally exactly if no redefinition hides a read. -/
theorem markedReadsAreLocal_iff (hf : config.ForwardOnly) :
    MarkedReadsAreLocal config publicationMask carriedMask ↔
      ¬ HidesRead config publicationMask carriedMask := by
  constructor
  · rintro h ⟨producer, redefinition, reader, slot, hout, hpub, hcar, hpd, hdr, hd, hplaced, hread⟩
    have hmark : slot ∈ localResidentMasks config publicationMask carriedMask producer := by
      refine mem_localResidentMasks.2 ⟨hout, hpub, hcar, fun c hpc _ hstray => ?_⟩
      refine ⟨redefinition, hpd, ?_, hd⟩
      by_contra hle
      have hok := hplaced c hpc (Nat.not_lt.1 hle) hstray.1
      obtain hne | hstart := hstray.2
      · exact hne hok.1
      · rw [hok.2] at hstart
        cases hstart
    have := (h producer slot hmark reader hread).1
    omega
  · intro h producer slot hmark reader hread
    obtain ⟨hout, hpub, hcar, hscan⟩ := mem_localResidentMasks.1 hmark
    by_contra hplace
    have hstray (c : Nat) (hc : slot ∈ config.inputMask c)
        (hno : ¬ (c = producer + 1 ∧ straightLongStructuredBlockStarts config c = false)) :
        StrayRead config (straightLongStructuredBlockStarts config) producer slot c := by
      refine ⟨hc, ?_⟩
      by_contra hnot
      simp only [not_or, not_not, Bool.not_eq_true] at hnot
      exact hno hnot
    obtain ⟨d, hpd, hdr, hd⟩ := hscan reader (hread.lt hf) (lt_of_mem_inputMask hread.1)
      (hstray reader hread.1 hplace)
    have hex : ∃ d, producer < d ∧ slot ∈ config.outputMask d := ⟨d, hpd, hd⟩
    obtain ⟨hfirst, hmem⟩ := Nat.find_spec hex
    have hle := Nat.find_min' hex ⟨hpd, hd⟩
    refine h ⟨producer, Nat.find hex, reader, slot, hout, hpub, hcar, hfirst, by omega, hmem,
      fun c hpc hcd hc => ?_, hread⟩
    by_contra hno
    have hcount := lt_of_mem_inputMask hc
    obtain ⟨d', hpd', hdc', hd'⟩ := hscan c hpc hcount (hstray c hc hno)
    have := Nat.find_min' hex ⟨hpd', hd'⟩
    omega

/-! Leaving out the marked stores. -/

/-- A slot whose last value the eliminated loop has not stored. -/
def StaleAt (config : NativeStraightLongLoopConfig) (publicationMask carriedMask : Mask)
    (i : Nat) (slot : Slot) : Prop :=
  ∃ producer pre mid, slot ∈ localResidentMasks config publicationMask carriedMask producer ∧
    config.Path 0 (pre ++ producer :: mid) i ∧ ∀ x ∈ mid, slot ∉ config.shadowOutputMask x

/-- The two loops inside the body: they agree up to the stale slots, and inside a block the
register holds the result of the operation before. -/
structure InBody (config : NativeStraightLongLoopConfig) (publicationMask carriedMask : Mask)
    (m m' : StraightMachine W) : Prop where
  agrees : m.Agrees (StaleAt config publicationMask carriedMask m.index) m'
  path : ∃ nodes, config.Path 0 nodes m.index
  forwarded : m.index ≠ 0 → ∃ q, m.index ∈ config.successors q ∧
    (straightLongStructuredBlockStarts config (q + 1) = false →
      m'.forwarded = config.shadowOutputMask q)

variable {ctx : NativeContext W} {m m' : StraightMachine W} {publicationMask carriedMask : Mask}

theorem InBody.fresh
    (hlocal : MarkedReadsAreLocal config publicationMask carriedMask)
    (h : InBody config publicationMask carriedMask m m')
    (hread : slot ∈ config.inputMask m.index) :
    slot ∈ m'.forwarded ∨ ¬ StaleAt config publicationMask carriedMask m.index slot := by
  by_cases hstale : StaleAt config publicationMask carriedMask m.index slot
  · obtain ⟨producer, pre, mid, hmark, hpath, hmid⟩ := hstale
    obtain ⟨hnext, hstart⟩ := hlocal producer slot hmark m.index ⟨hread, pre, mid, hpath, hmid⟩
    obtain ⟨q, hq, hforward⟩ := h.forwarded (by omega)
    have hsucc := eq_succ_of_not_start hstart hq
    obtain rfl : q = producer := by omega
    rw [hnext] at hstart
    rw [hforward hstart]
    exact .inl (mem_localResidentMasks.1 hmark).1
  · exact .inr hstale

theorem staleAt_of_staleAfter (hpath : ∃ nodes, config.Path 0 nodes i) (hsucc : j ∈ config.successors i)
    (h : StraightMachine.staleAfter (.localResident config publicationMask carriedMask) i
      (config.shadowOutputMask i) (StaleAt config publicationMask carriedMask i) slot) :
    StaleAt config publicationMask carriedMask j slot := by
  unfold StraightMachine.staleAfter at h
  split at h
  · obtain ⟨nodes, hp⟩ := hpath
    refine ⟨i, nodes, [], ?_, .snoc hp hsucc, by simp⟩
    simpa [Emission.localResident] using h
  · rename_i hout
    obtain ⟨producer, pre, mid, hmark, hp, hmid⟩ := h
    refine ⟨producer, pre, mid ++ [i], hmark, ?_, ?_⟩
    · have := Route.snoc hp hsucc
      simpa using this
    · intro x hx
      obtain hx | rfl := mem_concat_iff.1 hx
      · exact hmid x hx
      · exact hout

theorem not_staleAt_of_published (h : slot ∈ publicationMask) :
    ¬ StaleAt config publicationMask carriedMask i slot := by
  rintro ⟨producer, pre, mid, hmark, -, -⟩
  exact (mem_localResidentMasks.1 hmark).2.1 h

/-- The two loops at any time: inside the body, or after they have left it at the same operation. -/
def InStep (config : NativeStraightLongLoopConfig) (publicationMask carriedMask : Mask)
    (m m' : StraightMachine W) : Prop :=
  (m.exit = none → InBody config publicationMask carriedMask m m') ∧
    ∃ i, m.Agrees (StaleAt config publicationMask carriedMask i) m'

theorem InStep.step (hlocal : MarkedReadsAreLocal config publicationMask carriedMask)
    (h : InStep config publicationMask carriedMask m m') :
    InStep config publicationMask carriedMask (m.step ctx checked config .canonical)
      (m'.step ctx checked config (.localResident config publicationMask carriedMask)) := by
  obtain ⟨hbody, i, hagrees⟩ := h
  cases he : m.exit with
  | some exit =>
    rw [StraightMachine.step_of_exit (m := m) (by simp [he]),
      StraightMachine.step_of_exit (m := m') (by simp [hagrees.exit, he])]
    exact ⟨hbody, i, hagrees⟩
  | none =>
    have hin := hbody he
    cases ho : config.operations[m.index]? with
    | none =>
      rw [StraightMachine.step_of_none (m := m) ho,
        StraightMachine.step_of_none (m := m') (by rw [hagrees.index, ho])]
      exact ⟨hbody, i, hagrees⟩
    | some operation =>
      have hout : config.shadowOutputMask m.index = operation.shadowOutputMask := by
        simp [shadowOutputMask, ho]
      have hinput : config.inputMask m.index = straightLongOperationInputMask operation := by
        simp [inputMask, ho]
      obtain ⟨hnext, hleft⟩ := hin.agrees.step (e := .localResident config publicationMask
        carriedMask) ctx checked rfl he ho fun slot hslot => hin.fresh hlocal (hinput ▸ hslot)
      cases hn : (m.step ctx checked config .canonical).exit with
      | some exit =>
        exact ⟨fun h => by simp [hn] at h, m.index, hleft (by simp [hn])⟩
      | none =>
        obtain ⟨hagrees', hforward⟩ := hnext hn
        have hsucc := StraightMachine.index_mem_successors he ho hn
        rw [← hout] at hagrees' hforward
        have hnew := hagrees'.mono fun slot => staleAt_of_staleAfter hin.path hsucc
        refine ⟨fun _ => ⟨hnew, ?_, fun _ => ⟨m.index, hsucc, ?_⟩⟩, _, hnew⟩
        · obtain ⟨nodes, hp⟩ := hin.path
          exact ⟨_, .snoc hp hsucc⟩
        · intro hstart
          simpa [Emission.localResident, hstart] using hforward

theorem inStep_iterate (ctx : NativeContext W) (checked : Bool)
    (hlocal : MarkedReadsAreLocal config publicationMask carriedMask) (h : InStep config publicationMask carriedMask m m') (n : Nat) :
    InStep config publicationMask carriedMask
      ((StraightMachine.step ctx checked config .canonical)^[n] m)
      ((StraightMachine.step ctx checked config
        (.localResident config publicationMask carriedMask))^[n] m') := by
  induction n with
  | zero => exact h
  | succ n ih =>
    rw [Function.iterate_succ_apply', Function.iterate_succ_apply']
    exact ih.step hlocal

/-- Where marked values are read locally the eliminated stores are not missed. -/
theorem droppedStoresAreUnseen_of_local
    (hlocal : MarkedReadsAreLocal config publicationMask carriedMask) :
    DroppedStoresAreUnseen config publicationMask carriedMask := by
  intro W ctx checked m hm hforward
  have hstart : InStep config publicationMask carriedMask m m := by
    refine ⟨fun _ => ⟨.refl hforward, ?_, fun hne => absurd hm hne⟩, 0, .refl hforward⟩
    rw [hm]
    exact ⟨[], .nil⟩
  obtain ⟨-, i, hagrees⟩ := inStep_iterate ctx checked hlocal hstart config.operationCount
  have hend := hagrees.tail (e := .localResident config publicationMask carriedMask) config rfl
  exact ⟨hend.log, hend.exit, hend.induction, hend.world,
    fun slot hslot => hend.shadow slot (not_staleAt_of_published hslot)⟩

end

/-- The marked stores may be left out exactly if no redefinition hides a read from the scan: no
path leads from the producer around an operation that redefines the slot to a later reader, with
every read up to that operation in its place. -/
theorem localResident_sound_iff (config : NativeStraightLongLoopConfig)
    (publicationMask carriedMask : Mask) (hf : config.ForwardOnly) :
    MarkedReadsAreLocal config publicationMask carriedMask ∧
        DroppedStoresAreUnseen config publicationMask carriedMask ↔
      ¬ HidesRead config publicationMask carriedMask := by
  constructor
  · intro h
    exact (markedReadsAreLocal_iff hf).1 h.1
  · intro h
    have hlocal := (markedReadsAreLocal_iff hf).2 h
    exact ⟨hlocal, droppedStoresAreUnseen_of_local hlocal⟩

/-- A temporary that the next operation consumes. -/
def adjacentBody : NativeStraightLongLoopConfig where
  inductionSlot := 0
  bound := .const 10
  operations := [
    .binary .add (.slot 0) (.const 1) 4,
    .binaryAssign .add (.slot 1) (.slot 4) 5 1]
  postResult := none

theorem localResident_sound_adjacent :
    (4 : Slot) ∈ localResidentMasks adjacentBody (bit 1) (bit 1) 0 ∧
      MarkedReadsAreLocal adjacentBody (bit 1) (bit 1) ∧
      DroppedStoresAreUnseen adjacentBody (bit 1) (bit 1) := by
  refine ⟨by decide +kernel, (localResident_sound_iff adjacentBody (bit 1) (bit 1)
    (by decide +kernel)).2 ?_⟩
  rintro ⟨producer, redefinition, reader, slot, -, -, -, hpd, hdr, -, -, hread⟩
  have hlt : reader < 2 := lt_of_mem_inputMask hread.1
  omega

/-- Both arms of a conditional expression write the temporary 4, which the join reads. -/
def conditionalBody : NativeStraightLongLoopConfig where
  inductionSlot := 0
  bound := .const 10
  operations := [
    .branchUnless .lessThan (.source (.slot 0)) (.source (.const 5)) 3,
    .move (.slot 1) 4,
    .jump 4,
    .move (.slot 2) 4,
    .move (.slot 4) 3]
  postResult := none

/-- The scan from the first arm stops at the second one, so the store of the first arm is left out
although the join reads it. -/
theorem conditional_loses_first_arm :
    conditionalBody.ForwardOnly ∧ ¬ MarkedReadsAreLocal conditionalBody (bit 3) 0 ∧
      ¬ DroppedStoresAreUnseen conditionalBody (bit 3) 0 := by
  refine ⟨by decide +kernel, fun h => ?_, fun h => ?_⟩
  · have hpath : conditionalBody.Path 0 [0, 1, 2] 4 :=
      .snoc (.snoc (.snoc .nil (by decide +kernel)) (by decide +kernel)) (by decide +kernel)
    have hread : ReadsResult conditionalBody 1 4 4 :=
      ⟨by decide +kernel, [0], [2], hpath, by decide +kernel⟩
    exact absurd (h 1 4 (by decide +kernel) 4 hread).1 (by decide)
  · have hlog := (h Unit noContext false
      (.enter conditionalBody (fun slot => if slot = 1 then 7 else 0) ()) rfl rfl).1
    exact absurd hlog (by decide +kernel)

end Rphp.Jit
