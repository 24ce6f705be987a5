import Rphp.Jit.ShadowStores

namespace Rphp.Jit
open Rphp.Lib NativeStraightLongLoopConfig
set_option autoImplicit true

/-- The backward scan: the slots live after each operation, and those live before the first. -/
def linearLiveScan : List NativeStraightLongOperation → List Mask × Mask
  | [] => ([], 0)
  | operation :: operations =>
    let later := linearLiveScan operations
    (later.2 :: later.1,
      (later.2 &&& ~~~operation.outputMask) ||| straightLongOperationInputMask operation)

def straightLongLinearLiveAfter (config : NativeStraightLongLoopConfig) (index : Nat) : Mask :=
  (linearLiveScan config.operations).1.getD index 0

/-- The results that are stored: published ones, and those that outlive the next operation. -/
def straightLongLinearShadowStoreMask (config : NativeStraightLongLoopConfig) (index : Nat)
    (publicationMask : Mask) (liveAfter : Nat → Mask) : Mask :=
  let survivesImmediateConsumer :=
    if index + 1 < config.operationCount then
      liveAfter (index + 1) &&& ~~~config.outputMask (index + 1)
    else 0
  config.outputMask index &&& (publicationMask ||| survivesImmediateConsumer)

/-- The backward scan: the final definitions, and the outputs of the operations scanned. -/
def finalPublicationScan (publicationMask : Mask) :
    List NativeStraightLongOperation → List Mask × Mask
  | [] => ([], 0)
  | operation :: operations =>
    let later := finalPublicationScan publicationMask operations
    ((operation.outputMask &&& publicationMask &&& ~~~later.2) :: later.1,
      later.2 ||| operation.outputMask)

def straightLongLinearFinalPublicationMasks (config : NativeStraightLongLoopConfig)
    (publicationMask : Mask) (index : Nat) : Mask :=
  (finalPublicationScan publicationMask config.operations).1.getD index 0

namespace NativeStraightLongOperation

def isBranch : NativeStraightLongOperation → Bool
  | branchUnless _ _ _ _ => true
  | jump _ => true
  | _ => false

def isStringToken : NativeStraightLongOperation → Bool
  | stringToken _ _ => true
  | _ => false

end NativeStraightLongOperation

def NativeStraightLongLoopConfig.BranchFree (config : NativeStraightLongLoopConfig) : Prop :=
  ∀ operation ∈ config.operations, operation.isBranch = false

/-- An operation of the body writes the slot, and one reads it before any operation of the same
iteration has written it. -/
def NativeStraightLongLoopConfig.Carries (config : NativeStraightLongLoopConfig) (slot : Slot) :
    Prop :=
  (∃ writer, slot ∈ config.shadowOutputMask writer) ∧
    ∃ reader, slot ∈ config.inputMask reader ∧ ∀ j < reader, slot ∉ config.shadowOutputMask j

theorem NativeStraightLongLoopConfig.carries_iff (config : NativeStraightLongLoopConfig)
    (slot : Slot) :
    config.Carries slot ↔
      (∃ writer < config.operationCount, slot ∈ config.shadowOutputMask writer) ∧
        ∃ reader < config.operationCount, slot ∈ config.inputMask reader ∧
          ∀ j < reader, slot ∉ config.shadowOutputMask j := by
  constructor
  · rintro ⟨⟨writer, hw⟩, reader, hr, hno⟩
    exact ⟨⟨writer, lt_of_mem_shadowOutputMask hw, hw⟩, reader, lt_of_mem_inputMask hr, hr, hno⟩
  · rintro ⟨⟨writer, -, hw⟩, reader, -, hr, hno⟩
    exact ⟨⟨writer, hw⟩, reader, hr, hno⟩

instance (config : NativeStraightLongLoopConfig) (slot : Slot) : Decidable (config.Carries slot) :=
  decidable_of_iff _ (config.carries_iff slot).symm

instance (config : NativeStraightLongLoopConfig) : Decidable config.BranchFree :=
  inferInstanceAs (Decidable (∀ operation ∈ config.operations, operation.isBranch = false))

/-- The emission that skips every store outside the linear masks. -/
def Emission.linear (config : NativeStraightLongLoopConfig) (publicationMask : Mask) :
    Emission where
  keep index := straightLongLinearShadowStoreMask config index publicationMask
    (straightLongLinearLiveAfter config)
  forward _ := true
  early := none

/-- Write the last results of the final definitions to their slots. -/
def publishResults (finalMasks : Nat → Mask) (results : Nat → Option Int64) (count : Nat)
    (shadow : Slot → Int64) : Slot → Int64 :=
  (List.range count).foldl (fun shadow index slot =>
    if slot ∈ finalMasks index then (results index).getD (shadow slot) else shadow slot) shadow

/-- The slots when the loop stands at its head and ends; a side exit publishes nothing more. -/
def publishedSlots (config : NativeStraightLongLoopConfig) (publicationMask : Mask)
    (m : StraightMachine W) : Slot → Int64 :=
  let shadow :=
    if m.exit = none then
      publishResults (straightLongLinearFinalPublicationMasks config publicationMask) m.results
        config.operationCount m.shadow
    else m.shadow
  Function.update shadow config.inductionSlot m.induction

/-- The slots when a loop ends that has stored every result. -/
def storedSlots (config : NativeStraightLongLoopConfig) (m : StraightMachine W) : Slot → Int64 :=
  Function.update m.shadow config.inductionSlot m.induction

/-- Any number of iterations with the stores outside the linear masks left out, and with the final
publication at the end, gives every operation the same operands and every published slot the same
value as storing every result. -/
def LinearStoresSuffice (config : NativeStraightLongLoopConfig) (publicationMask : Mask) : Prop :=
  ∀ (W : Type) (ctx : NativeContext W) (checked : Bool) (slots : Slot → Int64) (world : W)
    (n : Nat),
    let stored := (StraightMachine.pass ctx checked config .canonical)^[n]
      (.enter config slots world)
    let kept := (StraightMachine.pass ctx checked config (.linear config publicationMask))^[n]
      (.enter config slots world)
    kept.log = stored.log ∧ kept.exit = stored.exit ∧ kept.world = stored.world ∧
      ∀ slot ∈ publicationMask,
        publishedSlots config publicationMask kept slot = storedSlots config stored slot

/-! What the scans compute. -/

section

variable {config : NativeStraightLongLoopConfig}

/-- Some operation from `i` on reads the slot before any of them writes it. -/
def LiveFrom (config : NativeStraightLongLoopConfig) (i : Nat) (slot : Slot) : Prop :=
  ∃ r, i ≤ r ∧ slot ∈ config.inputMask r ∧ ∀ j, i ≤ j → j < r → slot ∉ config.outputMask j

theorem liveFrom_iff :
    LiveFrom config i slot ↔
      slot ∈ config.inputMask i ∨ slot ∉ config.outputMask i ∧ LiveFrom config (i + 1) slot := by
  constructor
  · rintro ⟨r, hir, hread, hkept⟩
    obtain rfl | hlt := Nat.eq_or_lt_of_le hir
    · exact .inl hread
    · refine .inr ⟨hkept i (Nat.le_refl _) hlt, r, hlt, hread, fun j hij hjr => ?_⟩
      exact hkept j (by omega) hjr
  · rintro (hread | ⟨hout, r, hir, hread, hkept⟩)
    · exact ⟨i, Nat.le_refl _, hread, fun j hij hji => by omega⟩
    · refine ⟨r, by omega, hread, fun j hij hjr => ?_⟩
      obtain rfl | hlt := Nat.eq_or_lt_of_le hij
      · exact hout
      · exact hkept j hlt hjr

theorem linearLiveScan_drop (h : config.operationCount = i + n) :
    slot ∈ (linearLiveScan (config.operations.drop i)).2 ↔ LiveFrom config i slot := by
  induction n generalizing i with
  | zero =>
    have hnil : config.operations.drop i = [] := List.drop_eq_nil_of_le (by
      unfold operationCount at h; omega)
    rw [hnil]
    simp only [linearLiveScan, BitVec.ofNat_eq_ofNat, not_mem_zero, false_iff]
    rintro ⟨r, hir, hread, -⟩
    have := lt_of_mem_inputMask hread
    omega
  | succ n ih =>
    have hlt : i < config.operations.length := by
      unfold operationCount at h
      omega
    have hinput : config.inputMask i = straightLongOperationInputMask config.operations[i] := by
      simp [inputMask, hlt]
    have hout : config.outputMask i = config.operations[i].outputMask := by
      simp [outputMask, hlt]
    rw [List.drop_eq_getElem_cons hlt, linearLiveScan, liveFrom_iff, hinput, hout,
      ← ih (by omega)]
    simp only [mem_or, mem_and, mem_not]
    tauto

theorem linearLiveScan_getElem? (operations : List NativeStraightLongOperation) (i : Nat)
    (h : i < operations.length) :
    (linearLiveScan operations).1[i]? = some (linearLiveScan (operations.drop (i + 1))).2 := by
  induction operations generalizing i with
  | nil => simp at h
  | cons operation operations ih =>
    cases i with
    | zero => rfl
    | succ i =>
      simp only [List.length_cons] at h
      simpa [linearLiveScan] using ih i (by omega)

theorem mem_linearLiveAfter (h : i < config.operationCount) :
    slot ∈ straightLongLinearLiveAfter config i ↔ LiveFrom config (i + 1) slot := by
  rw [straightLongLinearLiveAfter, List.getD_eq_getElem?_getD,
    linearLiveScan_getElem? config.operations i h, Option.getD_some]
  exact linearLiveScan_drop (n := config.operationCount - (i + 1)) (by omega)

/-- A final definition publishes the slot, and no later operation writes it. -/
theorem mem_finalPublicationScan {operations : List NativeStraightLongOperation}
    (h : slot ∈ (finalPublicationScan publicationMask operations).1.getD i 0) :
    slot ∈ publicationMask ∧ (∃ operation, operations[i]? = some operation ∧
      slot ∈ operation.outputMask) ∧
      ∀ j, i < j → ∀ operation, operations[j]? = some operation → slot ∉ operation.outputMask := by
  induction operations generalizing i with
  | nil => simp [finalPublicationScan] at h
  | cons first operations ih =>
    have hlater : ∀ operation ∈ operations, slot ∈ operation.outputMask →
        slot ∈ (finalPublicationScan publicationMask operations).2 := by
      clear h ih
      induction operations with
      | nil => simp
      | cons second operations ih =>
        intro operation hop hmem
        simp only [finalPublicationScan, mem_or]
        obtain rfl | hop := List.mem_cons.1 hop
        · exact .inr hmem
        · exact .inl (ih operation hop hmem)
    cases i with
    | zero =>
      simp only [finalPublicationScan, List.getD_cons_zero, mem_and, mem_not] at h
      refine ⟨h.1.2, ⟨first, rfl, h.1.1⟩, fun j hj operation hop hmem => ?_⟩
      obtain ⟨j, rfl⟩ := Nat.exists_eq_add_of_lt hj
      have hop : operations[j]? = some operation := by simpa using hop
      exact h.2 (hlater operation (List.mem_of_getElem? hop) hmem)
    | succ i =>
      simp only [finalPublicationScan, List.getD_cons_succ] at h
      obtain ⟨hpub, hdef, hno⟩ := ih h
      refine ⟨hpub, by simpa using hdef, fun j hj operation hop => ?_⟩
      obtain ⟨j, rfl⟩ : ∃ j', j = j' + 1 := ⟨j - 1, by omega⟩
      exact hno j (by omega) operation (by simpa using hop)

/-! One iteration. -/

/-- The loops for which the linear masks are meant: branch-free, without String tokens, with every
carried slot published, and with a post-increment result that no published output shares. -/
structure LinearLoop (config : NativeStraightLongLoopConfig) (publicationMask : Mask) : Prop where
  branchFree : config.BranchFree
  noToken : ∀ operation ∈ config.operations, operation.isStringToken = false
  carried : ∀ slot, config.Carries slot → slot ∈ publicationMask
  postResult : ∀ slot ∈ publicationMask, config.postResult = some slot →
    ∀ i, slot ∉ config.outputMask i

variable {publicationMask : Mask}

theorem NativeStraightLongLoopConfig.BranchFree.successors_eq (hb : config.BranchFree)
    (h : i < config.operationCount) : config.successors i = [i + 1] := by
  have hget : config.operations[i]? = some config.operations[i] := List.getElem?_eq_getElem h
  have hop := hb _ (List.mem_of_getElem? hget)
  unfold successors
  rw [hget]
  cases hi : config.operations[i] <;> simp_all [NativeStraightLongOperation.isBranch]

theorem NativeStraightLongLoopConfig.BranchFree.forwardOnly (hb : config.BranchFree) :
    config.ForwardOnly := by
  intro i hi target ht
  have hget : config.operations[i]? = some config.operations[i] := List.getElem?_eq_getElem hi
  have hop := hb _ (List.mem_of_getElem? hget)
  unfold branchTargets at ht
  rw [hget] at ht
  cases ho : config.operations[i] <;> simp_all [NativeStraightLongOperation.isBranch]

theorem LinearLoop.shadowOutputMask_eq (hl : LinearLoop config publicationMask) (i : Nat) :
    config.shadowOutputMask i = config.outputMask i := by
  unfold shadowOutputMask outputMask
  cases ho : config.operations[i]? with
  | none => rfl
  | some operation =>
    have hop := hl.noToken _ (List.mem_of_getElem? ho)
    cases operation with
    | stringToken => cases hop
    | _ => rfl

/-- Slots that the loop with fewer stores may lack at its head. -/
def Unpublished (config : NativeStraightLongLoopConfig) (publicationMask : Mask) (slot : Slot) :
    Prop :=
  slot ∉ publicationMask ∧ ∃ writer, slot ∈ config.shadowOutputMask writer

/-- Slots that it may lack in front of an operation: they do not outlive the operation, and if it
reads them, they are forwarded. -/
def StaleBefore (config : NativeStraightLongLoopConfig) (publicationMask : Mask) (i : Nat)
    (forwarded : Mask) (slot : Slot) : Prop :=
  Unpublished config publicationMask slot ∧
    (slot ∉ config.outputMask i → ¬ LiveFrom config (i + 1) slot) ∧
    (slot ∈ config.inputMask i → slot ∈ forwarded)

theorem LinearLoop.staleBefore_head (hl : LinearLoop config publicationMask)
    (h : Unpublished config publicationMask slot) :
    StaleBefore config publicationMask 0 forwarded slot := by
  have hdead : ¬ LiveFrom config 0 slot := by
    rintro ⟨r, -, hread, hkept⟩
    refine h.1 (hl.carried slot ⟨h.2, r, hread, fun j hj => ?_⟩)
    rw [hl.shadowOutputMask_eq]
    exact hkept j (Nat.zero_le _) hj
  rw [liveFrom_iff] at hdead
  exact ⟨h, fun hout hlive => hdead (.inr ⟨hout, hlive⟩), fun hread => absurd (.inl hread) hdead⟩

theorem LinearLoop.staleBefore_succ (hl : LinearLoop config publicationMask)
    (hi : i < config.operationCount)
    (h : StraightMachine.staleAfter (.linear config publicationMask) i
      (config.shadowOutputMask i) (StaleBefore config publicationMask i forwarded) slot) :
    StaleBefore config publicationMask (i + 1) (config.shadowOutputMask i) slot := by
  unfold StraightMachine.staleAfter at h
  split at h
  · rename_i hout
    have hmem : slot ∈ config.outputMask i := by rwa [← hl.shadowOutputMask_eq]
    simp only [Emission.linear, straightLongLinearShadowStoreMask, mem_and, mem_or, hmem, true_and,
      not_or] at h
    refine ⟨⟨h.1, i, hout⟩, fun hnext hlive => ?_, fun _ => hout⟩
    have hlast : i + 1 < config.operationCount := by
      obtain ⟨r, hr, hread, -⟩ := hlive
      have := lt_of_mem_inputMask hread
      omega
    rw [if_pos hlast, mem_and, mem_not, mem_linearLiveAfter hlast] at h
    exact h.2 ⟨hlive, hnext⟩
  · rename_i hout
    rw [hl.shadowOutputMask_eq] at hout
    have hdead := h.2.1 hout
    rw [liveFrom_iff] at hdead
    exact ⟨h.1, fun hnext hlive => hdead (.inr ⟨hnext, hlive⟩),
      fun hread => absurd (.inl hread) hdead⟩

/-- The two loops inside an iteration; what an operation defined last stands in its outputs. -/
structure InIteration (config : NativeStraightLongLoopConfig) (publicationMask : Mask)
    (m m' : StraightMachine W) : Prop where
  agrees : m.Agrees (StaleBefore config publicationMask m.index m'.forwarded) m'
  defined : ∀ j < m.index, ∀ slot ∈ config.outputMask j,
    (∀ k, j < k → k < m.index → slot ∉ config.outputMask k) →
      m.results j = some (m.shadow slot)

/-- The two loops at any time. -/
def InLinearStep (config : NativeStraightLongLoopConfig) (publicationMask : Mask)
    (m m' : StraightMachine W) : Prop :=
  (m.exit = none → InIteration config publicationMask m m') ∧
    m.Agrees (Unpublished config publicationMask) m'

variable {m m' : StraightMachine W}

theorem InLinearStep.step (hl : LinearLoop config publicationMask) (ctx : NativeContext W)
    (checked : Bool) (h : InLinearStep config publicationMask m m') :
    InLinearStep config publicationMask (m.step ctx checked config .canonical)
      (m'.step ctx checked config (.linear config publicationMask)) := by
  obtain ⟨hbody, hagrees⟩ := h
  cases he : m.exit with
  | some exit =>
    rw [StraightMachine.step_of_exit (m := m) (by simp [he]),
      StraightMachine.step_of_exit (m := m') (by simp [hagrees.exit, he])]
    exact ⟨hbody, hagrees⟩
  | none =>
    have hin := hbody he
    cases ho : config.operations[m.index]? with
    | none =>
      rw [StraightMachine.step_of_none (m := m) ho,
        StraightMachine.step_of_none (m := m') (by rw [hagrees.index, ho])]
      exact ⟨hbody, hagrees⟩
    | some operation =>
      have hi : m.index < config.operationCount := (List.getElem?_eq_some_iff.1 ho).1
      have hout : config.shadowOutputMask m.index = operation.shadowOutputMask := by
        simp [shadowOutputMask, ho]
      have hinput : config.inputMask m.index = straightLongOperationInputMask operation := by
        simp [inputMask, ho]
      obtain ⟨hnext, hleft⟩ := hin.agrees.step (e := .linear config publicationMask) ctx checked
        rfl he ho fun slot hslot => by
          by_cases hmem : slot ∈ m'.forwarded
          · exact .inl hmem
          · exact .inr fun hstale => hmem (hstale.2.2 (hinput ▸ hslot))
      cases hn : (m.step ctx checked config .canonical).exit with
      | some exit =>
        exact ⟨fun h => by simp [hn] at h,
          (hleft (by simp [hn])).mono fun slot hstale => hstale.1⟩
      | none =>
        obtain ⟨hagrees', hforward⟩ := hnext hn
        have hindex := StraightMachine.index_mem_successors he ho hn
        rw [hl.branchFree.successors_eq hi, List.mem_singleton] at hindex
        rw [← hout] at hagrees' hforward
        have hnew := hagrees'.mono fun slot => hl.staleBefore_succ hi
        refine ⟨fun _ => ⟨?_, ?_⟩, hnew.mono fun slot hstale => hstale.1⟩
        · rw [hindex, hforward]
          exact hnew
        · obtain ⟨hresults, hshadow, hdefines⟩ :=
            StraightMachine.canonical_step_defines he ho hn
          rw [← hout, hl.shadowOutputMask_eq] at hshadow hdefines
          rw [hindex]
          intro j hj slot hslot hlast
          obtain hlt | rfl := Nat.lt_or_eq_of_le (Nat.lt_succ_iff.1 hj)
          · rw [hresults j (by omega), hshadow slot (hlast m.index hlt (Nat.lt_succ_self _))]
            exact hin.defined j hlt slot hslot fun k hjk hk => hlast k hjk (by omega)
          · exact hdefines slot hslot

theorem inLinearStep_iterate (hl : LinearLoop config publicationMask) (ctx : NativeContext W)
    (checked : Bool) (h : InLinearStep config publicationMask m m') (n : Nat) :
    InLinearStep config publicationMask
      ((StraightMachine.step ctx checked config .canonical)^[n] m)
      ((StraightMachine.step ctx checked config (.linear config publicationMask))^[n] m') := by
  induction n with
  | zero => exact h
  | succ n ih =>
    rw [Function.iterate_succ_apply', Function.iterate_succ_apply']
    exact ih.step hl ctx checked

/-! Whole runs. -/

/-- The two loops between iterations. The final definition of a published slot has produced what
the slot holds, unless it has not run yet. -/
structure AtHead (config : NativeStraightLongLoopConfig) (publicationMask : Mask)
    (m m' : StraightMachine W) : Prop where
  agrees : m.Agrees (Unpublished config publicationMask) m'
  head : m.exit = none → m.index = 0
  final : m.exit = none → ∀ i, ∀ slot ∈ straightLongLinearFinalPublicationMasks config
    publicationMask i, m.results i = none ∨ m.results i = some (m.shadow slot)

theorem InIteration.final (hl : LinearLoop config publicationMask)
    (h : InIteration config publicationMask m m') (he : m.exit = none)
    (hi : m.index = config.operationCount)
    (hslot : slot ∈ straightLongLinearFinalPublicationMasks config publicationMask i) :
    (m.tail config .canonical).results i = some ((m.tail config .canonical).shadow slot) := by
  obtain ⟨hpub, ⟨operation, ho, hdef⟩, hlater⟩ := mem_finalPublicationScan hslot
  have hout : slot ∈ config.outputMask i := by
    rw [outputMask, ho]
    exact hdef
  have hlt : i < m.index := by
    rw [hi]
    exact (List.getElem?_eq_some_iff.1 ho).1
  have hdefined : m.results i = some (m.shadow slot) := by
    refine h.defined i hlt slot hout fun k hik hk hmem => ?_
    rw [hi] at hk
    have hget : config.operations[k]? = some config.operations[k] := List.getElem?_eq_getElem hk
    rw [outputMask, hget] at hmem
    exact hlater k hik _ hget hmem
  simp only [StraightMachine.tail, he, hi, and_self, ↓reduceIte, hdefined, Option.some.injEq]
  cases hpost : config.postResult with
  | none => rfl
  | some result =>
    have hne : slot ≠ result := by
      rintro rfl
      exact hl.postResult slot hpub hpost i hout
    simp [Function.update_of_ne hne]

theorem AtHead.pass (hl : LinearLoop config publicationMask) (ctx : NativeContext W)
    (checked : Bool) (h : AtHead config publicationMask m m') :
    AtHead config publicationMask (m.pass ctx checked config .canonical)
      (m'.pass ctx checked config (.linear config publicationMask)) := by
  have hstart : InLinearStep config publicationMask m m' := by
    refine ⟨fun he => ⟨h.agrees.mono fun slot hslot => ?_, ?_⟩, h.agrees⟩
    · rw [h.head he]
      exact hl.staleBefore_head hslot
    · rw [h.head he]
      intro j hj
      omega
  obtain ⟨hbody, hagrees⟩ := inLinearStep_iterate hl ctx checked hstart config.operationCount
  have hexit : (m.pass ctx checked config .canonical).exit =
      ((StraightMachine.step ctx checked config .canonical)^[config.operationCount] m).exit := by
    unfold StraightMachine.pass StraightMachine.tail
    split <;> rfl
  have hcount (hend : ((StraightMachine.step ctx checked config
      .canonical)^[config.operationCount] m).exit = none) :=
    StraightMachine.body_ends hl.branchFree.forwardOnly
      (h.head (StraightMachine.exit_of_iterate_step _ hend)) hend
  refine ⟨hagrees.tail config rfl, fun hend => ?_, fun hend i slot hslot => ?_⟩
  · rw [hexit] at hend
    simp [StraightMachine.pass, StraightMachine.tail, hend, hcount hend]
  · rw [hexit] at hend
    exact .inr ((hbody hend).final hl hend (hcount hend) hslot)

theorem atHead_iterate (hl : LinearLoop config publicationMask) (ctx : NativeContext W)
    (checked : Bool) (h : AtHead config publicationMask m m') (n : Nat) :
    AtHead config publicationMask
      ((StraightMachine.pass ctx checked config .canonical)^[n] m)
      ((StraightMachine.pass ctx checked config (.linear config publicationMask))^[n] m') := by
  induction n with
  | zero => exact h
  | succ n ih =>
    rw [Function.iterate_succ_apply', Function.iterate_succ_apply']
    exact ih.pass hl ctx checked

theorem publishResults_eq {finalMasks : Nat → Mask} {results : Nat → Option Int64}
    (hresults : ∀ i, slot ∈ finalMasks i → results i = none ∨ results i = some value)
    (shadow : Slot → Int64) (hshadow : shadow slot = value) (count : Nat) :
    publishResults finalMasks results count shadow slot = value := by
  induction count with
  | zero => exact hshadow
  | succ count ih =>
    rw [publishResults, List.range_succ, List.foldl_append, List.foldl_cons, List.foldl_nil,
      ← publishResults]
    split
    · rename_i hmem
      obtain hnone | hsome := hresults count hmem
      · rw [hnone, Option.getD_none, ih]
      · rw [hsome, Option.getD_some]
    · exact ih

theorem AtHead.publishedSlots_eq (h : AtHead config publicationMask m m')
    (hslot : slot ∈ publicationMask) :
    publishedSlots config publicationMask m' slot = storedSlots config m slot := by
  have hfresh : m'.shadow slot = m.shadow slot :=
    h.agrees.shadow slot fun hun => hun.1 hslot
  unfold publishedSlots storedSlots
  rw [h.agrees.induction, h.agrees.exit, h.agrees.results]
  by_cases hind : slot = config.inductionSlot
  · subst hind
    simp
  · simp only [Function.update_of_ne hind]
    split
    · rename_i he
      exact publishResults_eq (fun i hmem => h.final he i slot hmem) _ hfresh _
    · exact hfresh

end

/-- In a branch-free loop without String tokens that publishes every carried slot, and whose
post-increment result is no published output, the linear masks keep every store that matters. -/
theorem linearStores_suffice (config : NativeStraightLongLoopConfig) (publicationMask : Mask)
    (hb : config.BranchFree)
    (ht : ∀ operation ∈ config.operations, operation.isStringToken = false)
    (hc : ∀ slot, config.Carries slot → slot ∈ publicationMask)
    (hp : ∀ slot ∈ publicationMask, config.postResult = some slot →
      ∀ i, slot ∉ config.outputMask i) :
    LinearStoresSuffice config publicationMask := by
  intro W ctx checked slots world n
  have hl : LinearLoop config publicationMask := ⟨hb, ht, hc, hp⟩
  have hstart : AtHead config publicationMask (.enter config slots world)
      (.enter config slots world) :=
    ⟨.refl rfl, fun _ => rfl, fun _ _ _ _ => .inl rfl⟩
  have hend := atHead_iterate hl ctx checked hstart n
  exact ⟨hend.agrees.log, hend.agrees.exit, hend.agrees.world,
    fun slot hslot => hend.publishedSlots_eq hslot⟩

/-- An accumulator over an expression of the induction value. -/
def accumulatorBody : NativeStraightLongLoopConfig where
  inductionSlot := 0
  bound := .const 10
  operations := [
    .binary .multiply (.slot 0) (.const 3) 2,
    .binary .add (.slot 2) (.const 7) 3,
    .binaryAssign .add (.slot 1) (.slot 3) 4 1]
  postResult := some 5

theorem linearStores_suffice_accumulator :
    accumulatorBody.Carries 1 ∧
      straightLongLinearShadowStoreMask accumulatorBody 0 (bit 1)
        (straightLongLinearLiveAfter accumulatorBody) = 0 ∧
      LinearStoresSuffice accumulatorBody (bit 1) := by
  refine ⟨by decide +kernel, by decide +kernel, linearStores_suffice accumulatorBody (bit 1)
    (by decide +kernel) (by decide +kernel) (by decide +kernel) ?_⟩
  intro slot hslot hpost
  obtain rfl := mem_bit.1 hslot
  cases hpost

local instance tokensNeZero : NeZero 4 := ⟨by decide⟩

/-- A String token with an operation between its definition and its use. -/
def tokenLinearBody : NativeStraightLongLoopConfig where
  inductionSlot := 0
  bound := .const 10
  operations := [
    .stringToken 1 5,
    .move (.const 7) 6,
    .stringLength 5 (fun i => if i = 0 then 3 else 4) 4 7]
  postResult := none

/-- The post-increment result goes to a published output of the body. -/
def sharedPostResultBody : NativeStraightLongLoopConfig where
  inductionSlot := 0
  bound := .const 10
  operations := [.move (.const 7) 5]
  postResult := some 5

/-- The linear masks do not cover String tokens, and the final publication would overwrite a
post-increment result that shares its slot. -/
theorem linearStores_insufficient :
    (tokenLinearBody.BranchFree ∧ (∀ slot, tokenLinearBody.Carries slot → slot ∈ bit 7) ∧
      ¬ LinearStoresSuffice tokenLinearBody (bit 7)) ∧
    (sharedPostResultBody.BranchFree ∧
      (∀ slot, sharedPostResultBody.Carries slot → slot ∈ bit 5) ∧
      ¬ LinearStoresSuffice sharedPostResultBody (bit 5)) := by
  refine ⟨⟨by decide +kernel, by decide +kernel, fun h => ?_⟩,
    ⟨by decide +kernel, by decide +kernel, fun h => ?_⟩⟩
  · have hlog := (h Unit noContext false (fun _ => 0) () 1).1
    exact absurd hlog (by decide +kernel)
  · have hslot := (h Unit noContext false (fun _ => 0) () 1).2.2.2 5 (by decide +kernel)
    exact absurd hslot (by decide +kernel)

end Rphp.Jit
