import Rphp.Jit.Affine

namespace Rphp.Jit
open Rphp.Lib NativeStraightLongLoopConfig
set_option autoImplicit true

/-! What the recognisers check. -/

section

variable {config : NativeStraightLongLoopConfig}

/-- The consumer adds the bias to the product, whatever the slots hold. -/
def AddsBias (intermediate : Slot) (bias : Int64) (operation : NativeStraightLongOperation) :
    Prop :=
  (∀ (W : Type) (ctx : NativeContext W) (f : QuickLongOperand → Int64) (world : W),
    (∀ value, f (.const value) = value) →
    operation.eval ctx false f world = .next (some (f (.slot intermediate) + bias)) world) ∧
  operation.shadowOutputMask = operation.outputMask

theorem multiplyProducer_eq_some
    (h : multiplyProducer operation = some (lhs, rhs, result)) :
    operation = .binary .multiply lhs rhs result := by
  unfold multiplyProducer at h
  split at h
  · simp only [Option.some.injEq, Prod.mk.injEq] at h
    obtain ⟨rfl, rfl, rfl⟩ := h
    rfl
  · cases h

/-- A binary operation with or without a destination. -/
def IsBinary (kind : ScalarLongOpKind) (lhs rhs : QuickLongOperand)
    (operation : NativeStraightLongOperation) : Prop :=
  (∃ result, operation = .binary kind lhs rhs result) ∨
    ∃ result destination, operation = .binaryAssign kind lhs rhs result destination

/-- The operation combines the product as the recogniser says. -/
def Combines (s : Slot) (operation : NativeStraightLongOperation) :
    StraightLongProductCombination → Prop
  | .add operand =>
    IsBinary .add (.slot s) operand operation ∨ IsBinary .add operand (.slot s) operation
  | .productMinus operand => IsBinary .subtract (.slot s) operand operation
  | .operandMinusProduct operand => IsBinary .subtract operand (.slot s) operation

theorem combines_of_consumer
    (h : productConsumer s operation = some (combination, result, destination)) :
    Combines s operation combination := by
  unfold productConsumer at h
  split at h
  all_goals repeat' split at h
  all_goals simp only [Option.some.injEq, Prod.mk.injEq, reduceCtorEq] at h
  all_goals
    obtain ⟨rfl, -⟩ := h
    simp_all [Combines, IsBinary]

theorem IsBinary.addsBias (h : IsBinary kind lhs rhs operation)
    (hvalue : ∀ f : QuickLongOperand → Int64, (∀ value, f (.const value) = value) →
      kind.eval false (f lhs) (f rhs) = some (f (.slot s) + bias)) :
    AddsBias s bias operation := by
  obtain ⟨result, rfl⟩ | ⟨result, destination, rfl⟩ := h
  all_goals
    refine ⟨fun W ctx f world hf => ?_, rfl⟩
    simp only [NativeStraightLongOperation.eval, hvalue f hf,
      NativeStraightLongOperation.arithmetic]

theorem addsBias_of_consumer
    (h : productConsumer s operation = some (combination, result, destination))
    (hbias : affineBias combination = some bias) : AddsBias s bias operation := by
  have hkind := combines_of_consumer h
  unfold affineBias at hbias
  split at hbias
  · obtain rfl := Option.some.inj hbias
    obtain hkind | hkind := hkind
    · apply hkind.addsBias
      intro f hf
      simp [ScalarLongOpKind.eval, hf]
    · apply hkind.addsBias
      intro f hf
      simp [ScalarLongOpKind.eval, hf, Int64.add_comm]
  · unfold checkedNeg at hbias
    split at hbias
    · cases hbias
    · obtain rfl := Option.some.inj hbias
      apply IsBinary.addsBias hkind
      intro f hf
      simp [ScalarLongOpKind.eval, hf, Int64.sub_eq_add_neg]
  · cases hbias

/-- A pair that one affine operation can stand for. -/
structure IsAffinePair (config : NativeStraightLongLoopConfig) (producer : Nat)
    (fusion : X86StraightAffineFusion) : Prop where
  producer_eq : fusion.producer = producer
  consumer_eq : fusion.consumer = producer + 1
  source : ∃ slot, fusion.source = .slot slot
  scale : isAffineScale fusion.scale = true
  bias : fitsI32 fusion.bias = true
  multiply : ∃ lhs rhs, config.operations[producer]? =
      some (.binary .multiply lhs rhs fusion.intermediate) ∧
    (lhs = fusion.source ∧ rhs = .const fusion.scale ∨
      lhs = .const fusion.scale ∧ rhs = fusion.source)
  consumer : ∃ operation, config.operations[producer + 1]? = some operation ∧
    AddsBias fusion.intermediate fusion.bias operation
  lastRead : fusion.intermediate ∈ config.outputMask (producer + 1) ∨
    ∀ reader ≥ producer + 2, fusion.intermediate ∉ config.inputMask reader

theorem affineFactors_eq_some (h : affineFactors lhs rhs = some (source, scale)) :
    (∃ slot, source = .slot slot) ∧ isAffineScale scale = true ∧
      (lhs = source ∧ rhs = .const scale ∨ lhs = .const scale ∧ rhs = source) := by
  unfold affineFactors at h
  split at h
  all_goals simp_all
  all_goals
    obtain ⟨hscale, rfl, rfl⟩ := h
    simp [hscale]

theorem isAffinePair_of_recognised (h : x86StraightAffineFusion config i = some fusion) :
    IsAffinePair config i fusion := by
  simp only [x86StraightAffineFusion, Option.bind_eq_bind, Option.bind_eq_some_iff,
    Option.pure_def, Option.bind_none, Option.ite_none_left_eq_some] at h
  obtain ⟨pair, hpair, ⟨source, scale⟩, hfactors, bias, hbias, hfits, hfusion⟩ := h
  obtain rfl := Option.some.inj hfusion
  simp only [straightLongMultiplyConsumerPair, Option.bind_eq_bind, Option.bind_eq_some_iff,
    Option.pure_def, Option.bind_none, Option.ite_none_left_eq_some] at hpair
  obtain ⟨-, ⟨lhs, rhs, intermediate⟩, ⟨producer, hproducer, hmultiply⟩,
    ⟨combination, result, destination⟩, ⟨consumer, hconsumer, hcombination⟩, -, hlast, hpair⟩ :=
    hpair
  obtain rfl := Option.some.inj hpair
  obtain ⟨hsource, hscale, hoperands⟩ := affineFactors_eq_some hfactors
  obtain rfl := multiplyProducer_eq_some hmultiply
  refine ⟨rfl, rfl, hsource, hscale, by simpa using hfits, ⟨lhs, rhs, hproducer, hoperands⟩,
    ⟨consumer, hconsumer, addsBias_of_consumer hcombination hbias⟩, ?_⟩
  rw [not_and_or, not_not] at hlast
  refine hlast.imp id fun hunread reader hr hmem => hunread ?_
  obtain ⟨operation, ho⟩ : ∃ operation, config.operations[reader]? = some operation :=
    ⟨_, List.getElem?_eq_getElem (lt_of_mem_inputMask hmem)⟩
  rw [inputMask, ho] at hmem
  rw [List.any_eq_true]
  refine ⟨operation, List.mem_of_getElem? (i := reader - (i + 1 + 1)) ?_, by simpa using hmem⟩
  rw [List.getElem?_drop, Nat.add_sub_cancel' hr, ho]

theorem branchFree_of_linear (h : supportsLinearScalarResidency config = true) :
    config.BranchFree := by
  intro operation hmem
  have hop := List.all_eq_true.1 h operation hmem
  cases operation with
  | branchUnless | jump => cases hop
  | _ => rfl

/-- A pair that the emitter fuses: the product is not published, only the producer leads to the
consumer, and the increment does not come between them if it changes the source. -/
structure IsEmittedPair (config : NativeStraightLongLoopConfig) (masks : PublicationMasks)
    (producer : Nat) (fusion : X86StraightAffineFusion) : Prop
    extends IsAffinePair config producer fusion where
  unpublished : fusion.intermediate ∉ masks.publication
  entered : ∀ i, producer + 1 ∈ config.successors i → i = producer
  increment : straightLongEarlyInductionIncrementOperation config ≠ some (producer + 1) ∨
    fusion.source ≠ .slot config.inductionSlot

theorem IsAffinePair.mem_outputs (h : IsAffinePair config i fusion) :
    fusion.intermediate ∈ config.outputMask i ∧ fusion.intermediate ∈ config.shadowOutputMask i := by
  obtain ⟨lhs, rhs, ho, -⟩ := h.multiply
  simp [outputMask, shadowOutputMask, ho, NativeStraightLongOperation.shadowOutputMask,
    NativeStraightLongOperation.outputMask]

theorem isEmittedPair_of_eq_some (h : emittedAffineFusion config masks i = some fusion) :
    IsEmittedPair config masks i fusion := by
  simp only [emittedAffineFusion, Option.bind_eq_bind, Option.bind_eq_some_iff,
    Option.pure_def, Option.bind_none, Option.ite_none_left_eq_some] at h
  obtain ⟨fusion, hfusion, hstart, hearly, hstore, hdeferred, heq⟩ := h
  obtain rfl := Option.some.inj heq
  have hpair := isAffinePair_of_recognised hfusion
  rw [hpair.consumer_eq] at hstart hearly
  obtain ⟨hout, hshadow⟩ := hpair.mem_outputs
  refine { hpair with unpublished := ?_, entered := ?_, increment := not_and_or.1 hearly }
  · intro hpub
    apply hstore
    unfold shadowStoreMask
    split
    · simp [straightLongLinearShadowStoreMask, hout, hpub, hdeferred]
    · split
      · simp only [mem_and, mem_not]
        exact ⟨⟨hshadow, hdeferred⟩, fun hmark => (mem_localResidentMasks.1 hmark).2.1 hpub⟩
      · simp [hshadow, hdeferred]
  · intro j hj
    cases hlinear : supportsLinearScalarResidency config with
    | true =>
      have hnext := (branchFree_of_linear hlinear).successors_eq (lt_of_mem_successors hj)
      rw [hnext, List.mem_singleton] at hj
      omega
    | false =>
      cases hstructured : supportsStructuredScalarResidency config with
      | true =>
        rw [hlinear, hstructured] at hstart
        have := eq_succ_of_not_start (by simpa using hstart) hj
        omega
      | false =>
        refine absurd ?_ hstore
        simp [shadowStoreMask, hlinear, hstructured, hshadow, hdeferred]

theorem pendingAffineFusion_succ {fusionAt : Nat → Option X86StraightAffineFusion}
    (h : pendingAffineFusion fusionAt (i + 1) = some fusion) :
    fusionAt i = some fusion ∧ pendingAffineFusion fusionAt i = none := by
  unfold pendingAffineFusion at h
  split at h
  · cases h
  · rename_i hnone
    exact ⟨h, hnone⟩

end

/-! The operations in sequence beside the fused ones. -/

namespace StraightMachine

variable {config : NativeStraightLongLoopConfig} {e : Emission}
variable {pending : Nat → Option X86StraightAffineFusion} {stale : Slot → Prop}
variable {m m' : StraightMachine W}

/-- The fused loop differs in stale slots of the shadow and in what the pairs leave behind. -/
structure FusedAgrees (pending : Nat → Option X86StraightAffineFusion) (stale : Slot → Prop)
    (m m' : StraightMachine W) : Prop where
  index : m'.index = m.index
  exit : m'.exit = m.exit
  induction : m'.induction = m.induction
  world : m'.world = m.world
  unforwarded : m.forwarded = 0 ∧ m'.forwarded = 0
  events : unpairedEvents pending m'.log = unpairedEvents pending m.log
  results : ∀ i, (pending (i + 1)).isNone → m'.results i = m.results i
  shadow : ∀ slot, ¬ stale slot → m'.shadow slot = m.shadow slot

/-- The operation is part of a pair. -/
def Paired (pending : Nat → Option X86StraightAffineFusion) (i : Nat) : Prop :=
  (pending i).isSome ∨ (pending (i + 1)).isSome

theorem unpairedEvents_concat (events : List Event) (event : Event) :
    unpairedEvents pending (events ++ [event]) =
      unpairedEvents pending events ++ unpairedEvents pending [event] :=
  List.filter_append ..

theorem unpairedEvents_of_paired {event : Event} (h : Paired pending event.index) :
    unpairedEvents pending [event] = [] := by
  rw [unpairedEvents, List.filter_eq_nil_iff]
  intro other hmem
  obtain rfl := List.mem_singleton.1 hmem
  obtain h | h := h <;> simp [Option.isNone_iff_eq_none, Option.isSome_iff_ne_none.1 h]

theorem FusedAgrees.mono (h : FusedAgrees pending stale m m')
    (hsub : ∀ slot, stale slot → stale' slot) : FusedAgrees pending stale' m m' :=
  { h with shadow := fun slot hs => h.shadow slot fun hstale => hs (hsub slot hstale) }

theorem FusedAgrees.beginOperation (h : FusedAgrees pending stale m m') (e : Emission) :
    FusedAgrees pending stale (beginOperation e m) (beginOperation e m') := by
  unfold StraightMachine.beginOperation
  rw [h.index]
  split
  · exact { h with
      index := rfl
      induction := congrArg (· + 1) h.induction }
  · exact h

theorem read_of_unforwarded (h : m.forwarded = 0) (slot : Slot) :
    m.read config (.slot slot) =
      if slot = config.inductionSlot then m.induction else m.shadow slot := by
  simp [read, h]

@[simp] theorem beginOperation_shadow : (beginOperation e m).shadow = m.shadow := by
  unfold beginOperation
  split <;> rfl

/-- The increment in front of an operation does not change what is no induction value. -/
theorem read_beginOperation (hm : m.forwarded = 0)
    (h : e.early ≠ some m.index ∨ slot ≠ config.inductionSlot) :
    (beginOperation e m).read config (.slot slot) = m.read config (.slot slot) := by
  obtain hearly | hslot := h
  · rw [beginOperation, if_neg hearly]
  · have hbegin : (beginOperation e m).forwarded = 0 := by
      unfold beginOperation
      split <;> exact hm
    rw [read_of_unforwarded hm, read_of_unforwarded hbegin, if_neg hslot, if_neg hslot,
      beginOperation_shadow]

theorem FusedAgrees.read_eq (h : FusedAgrees pending stale m m')
    (hfresh : ∀ slot, o = .slot slot → ¬ stale slot) : m'.read config o = m.read config o := by
  cases o with
  | const value => rfl
  | slot slot =>
    rw [read_of_unforwarded h.unforwarded.1, read_of_unforwarded h.unforwarded.2, h.induction,
      h.shadow slot (hfresh slot rfl)]

/-- Events of one operation, with the same operands unless it is part of a pair. -/
theorem FusedAgrees.events_concat (h : FusedAgrees pending stale m m')
    (hops : Paired pending m.index ∨ operands' = operands) (decision : Option Bool) :
    unpairedEvents pending (m'.log ++ [⟨m'.index, operands', decision⟩]) =
      unpairedEvents pending (m.log ++ [⟨m.index, operands, decision⟩]) := by
  rw [unpairedEvents_concat, unpairedEvents_concat, h.events, h.index]
  obtain hpaired | rfl := hops
  · rw [unpairedEvents_of_paired (by exact hpaired), unpairedEvents_of_paired (by exact hpaired)]
  · rfl

/-- What an effect leaves stale: outputs that got a value are fresh. -/
def staleBeyond (outputs : Mask) (stale : Slot → Prop) (slot : Slot) : Prop :=
  slot ∉ outputs ∧ stale slot

/-- The same effect leaves agreeing machines in agreement. -/
theorem FusedAgrees.advance (h : FusedAgrees pending stale m m')
    (hkeep : e.keep = fun _ => BitVec.allOnes 64) (hforward : e.forward = fun _ => false)
    (hops : Paired pending m.index ∨ operands' = operands) {effect : Effect W}
    (hfits : effect.Fits config m.index outputs) (hm : m.exit = none) :
    let n := advance e outputs operands m effect
    let n' := advance e outputs operands' m' effect
    (n.exit = none → FusedAgrees pending (staleBeyond outputs stale) n n') ∧
      (n.exit ≠ none → FusedAgrees pending stale n n') := by
  have hzero (stale : Slot → Prop) : staleBeyond 0 stale = stale := by
    funext slot
    simp [staleBeyond]
  cases effect with
  | next value world =>
    refine ⟨fun _ => ?_, fun hn => absurd ?_ hn⟩
    · cases value with
      | none =>
        obtain ⟨-, rfl⟩ := hfits
        rw [hzero]
        exact { h with
          index := congrArg (· + 1) h.index
          world := rfl
          unforwarded := ⟨rfl, rfl⟩
          events := h.events_concat hops none }
      | some value =>
        refine { h with
          index := congrArg (· + 1) h.index
          world := rfl
          unforwarded := by simp [StraightMachine.advance, hforward]
          events := h.events_concat hops none
          results := ?_
          shadow := ?_ }
        · intro i hi
          simp only [StraightMachine.advance, Function.update_apply, h.index, h.results i hi]
        · intro slot hs
          simp only [StraightMachine.advance, hkeep, mem_and, mem_allOnes, and_true]
          split
          · rfl
          · rename_i hout
            exact h.shadow slot fun hstale => hs ⟨hout, hstale⟩
    · cases value <;> exact hm
  | branch holds target =>
    obtain ⟨-, rfl⟩ := hfits
    refine ⟨fun _ => ?_, fun hn => absurd hm hn⟩
    rw [hzero]
    exact { h with
      index := by simp [StraightMachine.advance, h.index]
      unforwarded := ⟨rfl, rfl⟩
      events := h.events_concat hops (some holds) }
  | jump target =>
    obtain ⟨-, rfl⟩ := hfits
    refine ⟨fun _ => ?_, fun hn => absurd hm hn⟩
    rw [hzero]
    exact { h with
      index := rfl
      unforwarded := ⟨rfl, rfl⟩
      events := h.events_concat hops none }
  | sideExit world =>
    refine ⟨fun hn => absurd hn (by simp [StraightMachine.advance]), fun _ => ?_⟩
    exact { h with
      exit := by simp [StraightMachine.advance, h.index]
      world := rfl
      events := h.events_concat hops none }
  | fault =>
    refine ⟨fun hn => absurd hn (by simp [StraightMachine.advance]), fun _ => ?_⟩
    exact { h with
      exit := by simp [StraightMachine.advance, h.index]
      events := h.events_concat hops none }

/-- One loop stores the product of a pair and the other passes on. -/
theorem FusedAgrees.skip (h : FusedAgrees pending stale m m') (hforward : e.forward = fun _ => false)
    (hpair : (pending (m.index + 1)).isSome) (outputs : Mask) (operands : List Int64) (value : Int64) :
    FusedAgrees pending (fun slot => slot ∈ outputs ∨ stale slot)
      (StraightMachine.advance e outputs operands m (.next (some value) m.world))
      { m' with index := m'.index + 1 } where
  index := congrArg (· + 1) h.index
  exit := h.exit
  induction := h.induction
  world := h.world
  unforwarded := ⟨by simp [StraightMachine.advance, hforward], h.unforwarded.2⟩
  events := by
    simp only [StraightMachine.advance]
    rw [unpairedEvents_concat, unpairedEvents_of_paired (by exact .inr hpair), List.append_nil,
      h.events]
  results := by
    intro i hi
    have hne : i ≠ m.index := by
      rintro rfl
      simp [Option.isNone_iff_eq_none.1 hi] at hpair
    simp only [StraightMachine.advance, Function.update_of_ne hne, h.results i hi]
  shadow := by
    intro slot hs
    rw [not_or] at hs
    simp only [StraightMachine.advance, mem_and, hs.1, false_and, ↓reduceIte]
    exact h.shadow slot hs.2

theorem FusedAgrees.tail (h : FusedAgrees pending stale m m') (config : NativeStraightLongLoopConfig)
    (e : Emission) : FusedAgrees pending stale (tail config e m) (tail config e m') := by
  unfold StraightMachine.tail
  rw [h.index, h.exit]
  split
  · refine { h with
      index := rfl
      exit := rfl
      induction := by rw [h.induction]
      unforwarded := ⟨rfl, rfl⟩
      shadow := ?_ }
    intro slot hs
    cases config.postResult with
    | none => exact h.shadow slot hs
    | some result =>
      simp only [Option.elim, Function.update_apply, h.induction, h.shadow slot hs]
  · exact h

end StraightMachine

section

variable {config : NativeStraightLongLoopConfig} {masks : PublicationMasks}

/-- The fusions of the range-proven entry, by their consumers. -/
abbrev emittedPending (config : NativeStraightLongLoopConfig) (masks : PublicationMasks) :
    Nat → Option X86StraightAffineFusion :=
  pendingAffineFusion (emittedAffineFusion config masks)

/-- The slots that the fused loop may lack in front of an operation: what an iteration before left
out, or the product of a pair that the iteration has passed. -/
inductive FusedStale (config : NativeStraightLongLoopConfig) (masks : PublicationMasks) (i : Nat)
    (slot : Slot) : Prop
  | before (unpublished : slot ∉ masks.publication)
      (written : ∃ writer, slot ∈ config.shadowOutputMask writer)
      (path : config.Path 0 nodes i) (kept : ∀ x ∈ nodes, slot ∉ config.shadowOutputMask x)
  | passed (pair : emittedPending config masks (producer + 1) = some fusion)
      (product : fusion.intermediate = slot) (path : config.Path 0 (pre ++ producer :: mid) i)
      (kept : ∀ x ∈ mid, slot ∉ config.shadowOutputMask x)

theorem isEmittedPair_of_pending (h : emittedPending config masks (i + 1) = some fusion) :
    IsEmittedPair config masks i fusion :=
  isEmittedPair_of_eq_some (pendingAffineFusion_succ h).1

theorem emittedPending_succ_eq_none (h : emittedPending config masks i = some fusion) :
    emittedPending config masks (i + 1) = none := by
  unfold emittedPending at h ⊢
  rw [pendingAffineFusion, h]

theorem FusedStale.unpublished (h : FusedStale config masks i slot) :
    slot ∉ masks.publication := by
  cases h with
  | before hpub => exact hpub
  | passed pair product =>
    obtain rfl := product
    exact (isEmittedPair_of_pending pair).unpublished

theorem FusedStale.written (h : FusedStale config masks i slot) :
    ∃ writer, slot ∈ config.shadowOutputMask writer := by
  cases h with
  | before hpub hwritten => exact hwritten
  | passed pair product =>
    obtain rfl := product
    exact ⟨_, (isEmittedPair_of_pending pair).mem_outputs.2⟩

/-- What is stale at the end of an iteration is stale at the start of the next. -/
theorem FusedStale.atHead (h : FusedStale config masks i slot) : FusedStale config masks 0 slot :=
  .before h.unpublished h.written .nil (by simp)

theorem FusedStale.next (h : FusedStale config masks i slot) (hsucc : j ∈ config.successors i)
    (hout : slot ∉ config.shadowOutputMask i) : FusedStale config masks j slot := by
  cases h with
  | before hpub hwritten path kept =>
    refine .before hpub hwritten (.snoc path hsucc) fun x hx => ?_
    obtain hx | rfl := mem_concat_iff.1 hx
    · exact kept x hx
    · exact hout
  | @passed producer fusion pre mid pair product path kept =>
    have hpath := Route.snoc path hsucc
    rw [List.append_assoc, List.cons_append] at hpath
    refine .passed pair product hpath fun x hx => ?_
    obtain hx | rfl := mem_concat_iff.1 hx
    · exact kept x hx
    · exact hout

/-- A path out of an operation with one successor goes on there. -/
theorem Path.through {producer : Nat} (hnext : config.successors producer = [producer + 1])
    (h : config.Path 0 (pre ++ producer :: mid) i) :
    (mid = [] ∧ i = producer + 1) ∨ ∃ rest, mid = (producer + 1) :: rest := by
  generalize hnodes : pre ++ producer :: mid = nodes at h
  induction h generalizing mid with
  | nil => simp at hnodes
  | @snoc nodes v w h hw ih =>
    obtain rfl | ⟨rest, x, rfl⟩ := List.eq_nil_or_concat mid
    · have := List.append_inj_right' hnodes rfl
      obtain rfl : producer = v := by simpa using this
      rw [hnext, List.mem_singleton] at hw
      exact .inl ⟨rfl, hw⟩
    · rw [List.concat_eq_append, ← List.cons_append, ← List.append_assoc] at hnodes
      obtain ⟨hinit, hx⟩ := List.append_inj' hnodes rfl
      obtain rfl : x = v := by simpa using hx
      obtain ⟨rfl, rfl⟩ | ⟨rest, rfl⟩ := ih hinit
      · exact .inr ⟨[], by simp⟩
      · exact .inr ⟨rest ++ [x], by simp⟩

/-- No operation but the consumer of a pair reads a stale slot. -/
theorem FusedStale.unread (hf : config.ForwardOnly)
    (hc : ∀ slot, CarriedOnPath config slot → slot ∈ masks.publication)
    (hi : emittedPending config masks i = none) (h : FusedStale config masks i slot) :
    slot ∉ config.inputMask i := by
  intro hread
  cases h with
  | @before nodes hpub hwritten path kept =>
    exact hpub (hc slot ⟨hwritten, i, nodes, path, hread, kept⟩)
  | @passed producer fusion pre mid pair product path kept =>
    have hpair := isEmittedPair_of_pending pair
    obtain ⟨lhs, rhs, hmultiply, -⟩ := hpair.multiply
    obtain ⟨consumer, hconsumer, hadds⟩ := hpair.consumer
    have hnext : config.successors producer = [producer + 1] := by simp [successors, hmultiply]
    obtain ⟨-, rfl⟩ | ⟨rest, rfl⟩ := Path.through hnext path
    · rw [pair] at hi
      cases hi
    · have hlt : producer + 1 < i := path.lt_of_mem hf.forward (by simp)
      obtain hout | hunread := hpair.lastRead
      · have hkept := kept (producer + 1) (by simp)
        rw [shadowOutputMask, hconsumer, Option.elim, hadds.2] at hkept
        rw [outputMask, hconsumer, product] at hout
        exact hkept hout
      · exact hunread i hlt (product ▸ hread)

/-- The two loops at any time. In front of a consumer the loop in sequence holds the product. -/
structure InFusedStep (config : NativeStraightLongLoopConfig) (masks : PublicationMasks)
    (m m' : StraightMachine W) : Prop where
  agrees : m.FusedAgrees (emittedPending config masks) (FusedStale config masks m.index) m'
  path : ∃ nodes, config.Path 0 nodes m.index
  product : ∀ fusion, emittedPending config masks m.index = some fusion →
    m.shadow fusion.intermediate = m'.read config fusion.source * fusion.scale

variable {m m' : StraightMachine W}

/-- Nothing but its producer leads to the consumer of a pair. -/
theorem pending_successor_eq_none (hnext : emittedPending config masks (i + 1) = none)
    (h : target ∈ config.successors i) : emittedPending config masks target = none := by
  cases target with
  | zero => rfl
  | succ producer =>
    by_contra hsome
    obtain ⟨fusion, hfusion⟩ := Option.ne_none_iff_exists'.1 hsome
    obtain rfl := (isEmittedPair_of_pending hfusion).entered i h
    rw [hnext] at hfusion
    cases hfusion

/-- The two loops go on with the same effect of an operation that is no producer. -/
theorem InFusedStep.advance (h : InFusedStep config masks m m') (he : m.exit = none)
    (hnext : emittedPending config masks (m.index + 1) = none)
    (hops : StraightMachine.Paired (emittedPending config masks) m.index ∨ operands' = operands)
    {effect : Effect W} (hfits : effect.Fits config m.index (config.shadowOutputMask m.index))
    (hleave : emittedPending config masks m.index = none ∨
      ∃ value world, effect = .next (some value) world) :
    InFusedStep config masks
      ((m.beginOperation (.rangeProven config)).advance (.rangeProven config)
        (config.shadowOutputMask m.index) operands effect)
      ((m'.beginOperation (.rangeProven config)).advance (.rangeProven config)
        (config.shadowOutputMask m.index) operands' effect) := by
  have hbegin := h.agrees.beginOperation (.rangeProven config)
  rw [← StraightMachine.beginOperation_index (e := .rangeProven config)] at hops hfits
  obtain ⟨hstay, hleft⟩ := hbegin.advance (e := .rangeProven config) rfl rfl hops hfits
    (by simpa using he)
  rw [StraightMachine.beginOperation_index] at hfits hstay hleft
  by_cases hn : ((m.beginOperation (.rangeProven config)).advance (.rangeProven config)
      (config.shadowOutputMask m.index) operands effect).exit = none
  · have hsucc := StraightMachine.advance_index_mem_successors (e := .rangeProven config)
      (m := m.beginOperation (.rangeProven config)) (by simpa using hfits) hn
    rw [StraightMachine.beginOperation_index] at hsucc
    refine ⟨(hstay hn).mono fun slot hslot => hslot.2.next hsucc hslot.1, ?_, ?_⟩
    · obtain ⟨nodes, hpath⟩ := h.path
      exact ⟨_, .snoc hpath hsucc⟩
    · intro fusion hfusion
      rw [pending_successor_eq_none hnext hsucc] at hfusion
      cases hfusion
  · have hindex := StraightMachine.advance_index_of_exit
      (m := m.beginOperation (.rangeProven config)) (by simpa using he) hn
    rw [StraightMachine.beginOperation_index] at hindex
    constructor
    · rw [hindex]
      exact hleft hn
    · rw [hindex]
      exact h.path
    · rw [hindex]
      intro fusion hfusion
      obtain hnone | ⟨value, world, rfl⟩ := hleave
      · rw [hnone] at hfusion
        cases hfusion
      · exact absurd (by simpa [StraightMachine.advance] using he) hn

/-- An operation outside the pairs. -/
theorem InFusedStep.stepAlone (hf : config.ForwardOnly)
    (hc : ∀ slot, CarriedOnPath config slot → slot ∈ masks.publication) (ctx : NativeContext W)
    (h : InFusedStep config masks m m') (he : m.exit = none)
    (ho : config.operations[m.index]? = some operation)
    (hi : emittedPending config masks m.index = none)
    (hnext : emittedPending config masks (m.index + 1) = none) :
    InFusedStep config masks (m.step ctx false config (.rangeProven config))
      (m'.step ctx false config (.rangeProven config)) := by
  have hbegin := h.agrees.beginOperation (.rangeProven config)
  have hreads : ∀ o ∈ operation.operands,
      (m'.beginOperation (.rangeProven config)).read config o =
        (m.beginOperation (.rangeProven config)).read config o := by
    intro o hmem
    apply hbegin.read_eq
    intro slot heq hstale
    refine hstale.unread hf hc hi ?_
    rw [inputMask, ho]
    exact (NativeStraightLongOperation.mem_inputMask _).2 (heq ▸ hmem)
  have ho' : config.operations[m'.index]? = some operation := by rw [h.agrees.index, ho]
  have hout : config.shadowOutputMask m.index = operation.shadowOutputMask := by
    simp [shadowOutputMask, ho]
  rw [StraightMachine.step_of_some he ho, StraightMachine.step_of_some (h.agrees.exit.trans he) ho',
    NativeStraightLongOperation.eval_congr hreads, List.map_congr_left hreads, hbegin.world, ← hout]
  refine h.advance he hnext (.inr rfl) ?_ (.inl hi)
  rw [hout]
  exact eval_fits ctx false _ _ ho

/-- The product is in its slot on the one side, and the source is unchanged on the other. -/
theorem InFusedStep.skip (h : InFusedStep config masks m m')
    (hpair : emittedPending config masks (m.index + 1) = some fusion)
    (hsucc : m.index + 1 ∈ config.successors m.index)
    (hout : config.shadowOutputMask m.index = bit fusion.intermediate) (operands : List Int64) :
    InFusedStep config masks
      ((m.beginOperation (.rangeProven config)).advance (.rangeProven config)
        (bit fusion.intermediate) operands
        (.next (some ((m'.beginOperation (.rangeProven config)).read config fusion.source *
          fusion.scale)) (m.beginOperation (.rangeProven config)).world))
      { m'.beginOperation (.rangeProven config) with index := m'.index + 1 } := by
  have hbegin := h.agrees.beginOperation (.rangeProven config)
  have hskip := hbegin.skip (e := .rangeProven config) rfl (by simp [hpair])
    (bit fusion.intermediate) operands
    ((m'.beginOperation (.rangeProven config)).read config fusion.source * fusion.scale)
  rw [StraightMachine.beginOperation_index] at hskip
  have hindex : ((m.beginOperation (.rangeProven config)).advance (.rangeProven config)
      (bit fusion.intermediate) operands
      (.next (some ((m'.beginOperation (.rangeProven config)).read config fusion.source *
        fusion.scale)) (m.beginOperation (.rangeProven config)).world)).index = m.index + 1 :=
    congrArg (· + 1) StraightMachine.beginOperation_index
  obtain ⟨nodes, hpath⟩ := h.path
  constructor
  · refine hskip.mono fun slot hslot => ?_
    rw [hindex]
    by_cases hproduct : slot = fusion.intermediate
    · exact .passed hpair hproduct.symm (.snoc hpath hsucc) (by simp)
    · have hnot : slot ∉ bit fusion.intermediate := fun hmem => hproduct (mem_bit.1 hmem)
      exact (hslot.resolve_left hnot).next hsucc (hout ▸ hnot)
  · rw [hindex]
    exact ⟨_, .snoc hpath hsucc⟩
  · rw [hindex, hpair]
    intro other hother
    obtain rfl := Option.some.inj hother
    simp only [StraightMachine.advance, Emission.rangeProven, Emission.canonical, mem_and, mem_bit,
      mem_allOnes, and_self, ↓reduceIte]
    rfl

/-- The producer of a pair: the loop in sequence multiplies, the fused one passes on. -/
theorem InFusedStep.stepProducer (hf : config.ForwardOnly)
    (hc : ∀ slot, CarriedOnPath config slot → slot ∈ masks.publication) (ctx : NativeContext W)
    (h : InFusedStep config masks m m') (he : m.exit = none)
    (hpair : emittedPending config masks (m.index + 1) = some fusion) :
    InFusedStep config masks (m.step ctx false config (.rangeProven config))
      { m'.beginOperation (.rangeProven config) with index := m'.index + 1 } := by
  have hi := (pendingAffineFusion_succ hpair).2
  obtain ⟨lhs, rhs, ho, hoperands⟩ := (isEmittedPair_of_pending hpair).multiply
  have hbegin := h.agrees.beginOperation (.rangeProven config)
  have hsource : (m'.beginOperation (.rangeProven config)).read config fusion.source =
      (m.beginOperation (.rangeProven config)).read config fusion.source := by
    apply hbegin.read_eq
    intro slot heq hstale
    refine hstale.unread hf hc hi ?_
    rw [inputMask, ho]
    obtain ⟨rfl, rfl⟩ | ⟨rfl, rfl⟩ := hoperands <;>
      simp [straightLongOperationInputMask, heq, operandMask]
  have hvalue : ScalarLongOpKind.multiply.eval false
      ((m.beginOperation (.rangeProven config)).read config lhs)
      ((m.beginOperation (.rangeProven config)).read config rhs) =
        some ((m'.beginOperation (.rangeProven config)).read config fusion.source *
          fusion.scale) := by
    rw [hsource]
    obtain ⟨rfl, rfl⟩ | ⟨rfl, rfl⟩ := hoperands
    · simp [ScalarLongOpKind.eval, StraightMachine.read]
    · simp [ScalarLongOpKind.eval, StraightMachine.read, Int64.mul_comm]
  rw [StraightMachine.step_of_some he ho, NativeStraightLongOperation.eval, hvalue,
    NativeStraightLongOperation.arithmetic]
  exact h.skip hpair (by simp [successors, ho]) (by rw [shadowOutputMask, ho]; rfl) _

/-- The consumer of a pair: it adds the bias to the product, which is what the affine operation
computes from the source. -/
theorem InFusedStep.stepConsumer (hv : validateScalarStraightConfig config = .ok ())
    (ctx : NativeContext W) (h : InFusedStep config masks m m') (he : m.exit = none)
    (ho : config.operations[m.index]? = some operation)
    (hpair : emittedPending config masks m.index = some fusion) :
    InFusedStep config masks (m.step ctx false config (.rangeProven config))
      ((m'.beginOperation (.rangeProven config)).advance (.rangeProven config)
        operation.shadowOutputMask [(m'.beginOperation (.rangeProven config)).read config fusion.source]
        (.next (some ((m'.beginOperation (.rangeProven config)).read config fusion.source *
          fusion.scale + fusion.bias)) (m'.beginOperation (.rangeProven config)).world)) := by
  have hbegin := h.agrees.beginOperation (.rangeProven config)
  obtain ⟨producer, hproducer⟩ : ∃ producer, m.index = producer + 1 := by
    cases hm : m.index with
    | zero => simp [hm, emittedPending, pendingAffineFusion] at hpair
    | succ producer => exact ⟨producer, rfl⟩
  have hspec := isEmittedPair_of_pending (hproducer ▸ hpair)
  obtain ⟨consumer, hconsumer, hadds, -⟩ := hspec.consumer
  rw [← hproducer, ho] at hconsumer
  obtain rfl := Option.some.inj hconsumer
  obtain ⟨lhs, rhs, hmultiply, -⟩ := hspec.multiply
  have hnext := emittedPending_succ_eq_none hpair
  have hproduct : (m.beginOperation (.rangeProven config)).read config
      (.slot fusion.intermediate) = m.shadow fusion.intermediate := by
    rw [StraightMachine.read_of_unforwarded hbegin.unforwarded.1,
      if_neg (result_ne_of_validate hv hmultiply), StraightMachine.beginOperation_shadow]
  have hsource : (m'.beginOperation (.rangeProven config)).read config fusion.source =
      m'.read config fusion.source := by
    obtain ⟨slot, hslot⟩ := hspec.source
    rw [hslot]
    apply StraightMachine.read_beginOperation h.agrees.unforwarded.2
    rw [h.agrees.index, hproducer]
    exact hspec.increment.imp id fun hne heq => hne (by rw [hslot, heq])
  have hout : config.shadowOutputMask m.index = operation.shadowOutputMask := by
    simp [shadowOutputMask, ho]
  rw [StraightMachine.step_of_some he ho, hadds _ _ _ _ fun _ => rfl, hproduct,
    h.product fusion hpair, hsource, hbegin.world, ← hout]
  refine h.advance he hnext (.inl (.inl (by simp [hpair]))) ?_ (.inr ⟨_, _, rfl⟩)
  have hfits := eval_fits ctx false ((m.beginOperation (.rangeProven config)).read config)
    (m.beginOperation (.rangeProven config)).world ho
  rw [hadds _ _ _ _ fun _ => rfl] at hfits
  exact hfits

theorem InFusedStep.step (hv : validateScalarStraightConfig config = .ok ())
    (hc : ∀ slot, CarriedOnPath config slot → slot ∈ masks.publication) (ctx : NativeContext W)
    (h : InFusedStep config masks m m') :
    InFusedStep config masks (m.step ctx false config (.rangeProven config))
      (m'.fusedStep ctx config (.rangeProven config) (emittedPending config masks)) := by
  have hf := forwardOnly_of_validate hv
  cases he : m.exit with
  | some exit =>
    rw [StraightMachine.step_of_exit (m := m) (by simp [he])]
    simpa only [StraightMachine.fusedStep, h.agrees.exit, he] using h
  | none =>
    cases ho : config.operations[m.index]? with
    | none =>
      rw [StraightMachine.step_of_none (m := m) ho]
      simpa only [StraightMachine.fusedStep, h.agrees.exit, h.agrees.index, he, ho] using h
    | some operation =>
      simp only [StraightMachine.fusedStep, h.agrees.exit, h.agrees.index, he, ho]
      cases hi : emittedPending config masks m.index with
      | some fusion =>
        rw [emittedPending_succ_eq_none hi]
        exact h.stepConsumer hv ctx he ho hi
      | none =>
        cases hnext : emittedPending config masks (m.index + 1) with
        | some fusion =>
          rw [← h.agrees.index]
          exact h.stepProducer hf hc ctx he hnext
        | none => exact h.stepAlone hf hc ctx he ho hi hnext

theorem InFusedStep.tail (h : InFusedStep config masks m m') :
    InFusedStep config masks (m.tail config (.rangeProven config))
      (m'.tail config (.rangeProven config)) := by
  have htail := h.agrees.tail config (.rangeProven config)
  by_cases hend : m.exit = none ∧ m.index = config.operationCount
  · have hindex : (m.tail config (.rangeProven config)).index = 0 := by
      rw [StraightMachine.tail, if_pos hend]
    constructor
    · rw [hindex]
      exact htail.mono fun slot hslot => hslot.atHead
    · rw [hindex]
      exact ⟨[], .nil⟩
    · rw [hindex]
      intro fusion hfusion
      cases hfusion
  · have hend' : ¬ (m'.exit = none ∧ m'.index = config.operationCount) := by
      rwa [h.agrees.exit, h.agrees.index]
    rw [StraightMachine.tail, StraightMachine.tail, if_neg hend, if_neg hend']
    exact h

theorem InFusedStep.pass (hv : validateScalarStraightConfig config = .ok ())
    (hc : ∀ slot, CarriedOnPath config slot → slot ∈ masks.publication) (ctx : NativeContext W)
    (h : InFusedStep config masks m m') :
    InFusedStep config masks (m.pass ctx false config (.rangeProven config))
      (m'.fusedPass ctx config (.rangeProven config) (emittedPending config masks)) := by
  have hbody (n : Nat) : InFusedStep config masks
      ((StraightMachine.step ctx false config (.rangeProven config))^[n] m)
      ((StraightMachine.fusedStep ctx config (.rangeProven config)
        (emittedPending config masks))^[n] m') := by
    induction n with
    | zero => exact h
    | succ n ih =>
      rw [Function.iterate_succ_apply', Function.iterate_succ_apply']
      exact ih.step hv hc ctx
  exact (hbody config.operationCount).tail

theorem inFusedStep_iterate (hv : validateScalarStraightConfig config = .ok ())
    (hc : ∀ slot, CarriedOnPath config slot → slot ∈ masks.publication) (ctx : NativeContext W)
    (h : InFusedStep config masks m m') (n : Nat) :
    InFusedStep config masks
      ((StraightMachine.pass ctx false config (.rangeProven config))^[n] m)
      ((StraightMachine.fusedPass ctx config (.rangeProven config)
        (emittedPending config masks))^[n] m') := by
  induction n with
  | zero => exact h
  | succ n ih =>
    rw [Function.iterate_succ_apply', Function.iterate_succ_apply']
    exact ih.pass hv hc ctx

end

/-- In an accepted loop that publishes every slot carried from one iteration to the next, the
pairs that the range-proven entry fuses have encodable scales and biases and give every run the
same results, operands and published slots as the operations in sequence. -/
theorem emittedFusion_preserves (config : NativeStraightLongLoopConfig) (masks : PublicationMasks)
    (hv : validateScalarStraightConfig config = .ok ())
    (hc : ∀ slot, CarriedOnPath config slot → slot ∈ masks.publication) :
    (∀ producer fusion, emittedAffineFusion config masks producer = some fusion →
      isAffineScale fusion.scale = true ∧ fitsI32 fusion.bias = true) ∧
    FusionPreserves config (pendingAffineFusion (emittedAffineFusion config masks))
      masks.publication := by
  constructor
  · intro producer fusion h
    have hpair := isEmittedPair_of_eq_some h
    exact ⟨hpair.scale, hpair.bias⟩
  · intro W ctx slots world n
    have hstart : InFusedStep config masks (W := W) (.enter config slots world)
        (.enter config slots world) := by
      refine ⟨?_, ⟨[], .nil⟩, fun fusion hfusion => by cases hfusion⟩
      exact ⟨rfl, rfl, rfl, rfl, ⟨rfl, rfl⟩, rfl, fun _ _ => rfl, fun _ _ => rfl⟩
    have hend := (inFusedStep_iterate hv hc ctx hstart n).agrees
    refine ⟨hend.exit, hend.world, hend.events, hend.results, fun slot hslot => ?_⟩
    unfold storedSlots
    rw [hend.induction, Function.update_apply, Function.update_apply,
      hend.shadow slot fun hstale => hstale.unpublished hslot]

/-- Without branches every operation is on the one path. -/
theorem carries_of_carriedOnPath {config : NativeStraightLongLoopConfig} (hb : config.BranchFree)
    (h : CarriedOnPath config slot) : config.Carries slot := by
  obtain ⟨hwritten, reader, nodes, hpath, hread, hkept⟩ := h
  have hnodes : nodes = List.range reader := by
    clear hread hkept
    induction hpath with
    | nil => rfl
    | snoc hpath hw ih =>
      rw [hb.successors_eq (lt_of_mem_successors hw), List.mem_singleton] at hw
      rw [ih, hw, List.range_succ]
  exact ⟨hwritten, reader, hread, fun j hj => hkept j (by rw [hnodes]; exact List.mem_range.2 hj)⟩

/-- Two pairs: a product of the induction value, and one of the result of the first pair. -/
def twoPairsBody : NativeStraightLongLoopConfig where
  inductionSlot := 0
  bound := .const 10
  operations := [
    .binary .multiply (.slot 0) (.const 3) 2,
    .binary .subtract (.slot 2) (.const 7) 3,
    .binary .multiply (.const 9) (.slot 3) 5,
    .binaryAssign .add (.const 5) (.slot 5) 4 1]
  postResult := some 7

theorem emittedFusion_preserves_twoPairs :
    (pendingAffineFusion (emittedAffineFusion twoPairsBody ⟨bit 1, 0, 0⟩) 1).isSome ∧
      (pendingAffineFusion (emittedAffineFusion twoPairsBody ⟨bit 1, 0, 0⟩) 3).isSome ∧
      FusionPreserves twoPairsBody
        (pendingAffineFusion (emittedAffineFusion twoPairsBody ⟨bit 1, 0, 0⟩)) (bit 1) := by
  refine ⟨by decide +kernel, by decide +kernel,
    (emittedFusion_preserves twoPairsBody ⟨bit 1, 0, 0⟩ (by decide +kernel) ?_).2⟩
  have hcarries : ∀ slot, twoPairsBody.Carries slot → slot ∈ bit 1 := by decide +kernel
  exact fun slot hslot => hcarries slot (carries_of_carriedOnPath (by decide +kernel) hslot)

/-- The first operation reads what the producer left in the iteration before. -/
def carriedProductBody : NativeStraightLongLoopConfig where
  inductionSlot := 0
  bound := .const 10
  operations := [
    .move (.slot 4) 6,
    .binary .multiply (.slot 0) (.const 3) 4,
    .binary .add (.slot 4) (.const 1) 5]
  postResult := none

/-- A branch leads to the consumer past the producer. -/
def enteredPairBody : NativeStraightLongLoopConfig where
  inductionSlot := 0
  bound := .const 10
  operations := [
    .branchUnless .lessThan (.source (.slot 0)) (.source (.const 5)) 2,
    .binary .multiply (.slot 1) (.const 3) 4,
    .binary .add (.slot 4) (.const 1) 5]
  postResult := none

/-- The recogniser alone accepts pairs whose product a later iteration reads or the loop
publishes, and pairs with a branch to the consumer; the masks and the block starts of the emitter
turn them down. -/
theorem recognisedFusion_observed :
    (validateScalarStraightConfig carriedProductBody = .ok () ∧
      (x86StraightAffineFusion carriedProductBody 1).isSome ∧
      ¬ FusionPreserves carriedProductBody
        (pendingAffineFusion (x86StraightAffineFusion carriedProductBody)) (bit 6) ∧
      ¬ FusionPreserves carriedProductBody
        (pendingAffineFusion (x86StraightAffineFusion carriedProductBody)) (bit 4)) ∧
    (validateScalarStraightConfig enteredPairBody = .ok () ∧
      (x86StraightAffineFusion enteredPairBody 1).isSome ∧
      ¬ FusionPreserves enteredPairBody
        (pendingAffineFusion (x86StraightAffineFusion enteredPairBody)) (bit 5)) := by
  refine ⟨⟨by decide +kernel, by decide +kernel, fun h => ?_, fun h => ?_⟩,
    by decide +kernel, by decide +kernel, fun h => ?_⟩
  · have hevents := (h Unit noContext (fun slot => if slot = 0 then 1 else 0) () 2).2.2.1
    exact absurd hevents (by decide +kernel)
  · have hslot := (h Unit noContext (fun slot => if slot = 0 then 1 else 0) () 1).2.2.2.2 4
      (by decide +kernel)
    exact absurd hslot (by decide +kernel)
  · have hslot := (h Unit noContext (fun slot => if slot = 0 then 7 else 1) () 1).2.2.2.2 5
      (by decide +kernel)
    exact absurd hslot (by decide +kernel)

end Rphp.Jit
