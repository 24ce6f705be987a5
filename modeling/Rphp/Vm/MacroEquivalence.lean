import Rphp.Vm.Replay

namespace Rphp.Vm
set_option autoImplicit true

theorem Value.asLong_of_type {value : Value} (h : value.type = .long) :
    value.asLong = some value.raw := by
  rw [asLong, if_pos h]

theorem block_front {opArray : OpArray} (hsplit : opArray.block block = front ++ instrs) :
    (opArray.instructions.drop block.startIp).take front.length = front := by
  have htake := congrArg (List.take front.length) hsplit
  have hlength := congrArg List.length hsplit
  rw [OpArray.block, List.take_take, List.take_left] at htake
  rw [OpArray.block, List.length_take, List.length_append] at hlength
  rwa [Nat.min_eq_left (by omega)] at htake

theorem block_instruction {opArray : OpArray}
    (hsplit : opArray.block block = front ++ instr :: rest) :
    opArray.instructions[block.startIp + front.length]? = some instr := by
  have hinstr : (opArray.block block)[front.length]? = some instr := by
    rw [hsplit, List.getElem?_append_right (Nat.le_refl _), Nat.sub_self,
      List.getElem?_cons_zero]
  have hlength := congrArg List.length hsplit
  rw [OpArray.block, List.length_take, List.length_append, List.length_cons] at hlength
  rw [OpArray.block, List.getElem?_take_of_lt (by omega), List.getElem?_drop] at hinstr
  exact hinstr

/-- A conditional jump is the last instruction of its block. -/
theorem block_jmpZ_last {opArray : OpArray} {blockIdx : Nat}
    (hblock : opArray.blockInfo[blockIdx]? = some block)
    (hsplit : opArray.block block = front ++ instr :: rest) (hopcode : instr.opcode = .jmpZ) :
    rest = [] := by
  by_contra hrest
  have hpositive : 0 < rest.length := List.length_pos_iff.mpr hrest
  have hlength := congrArg List.length hsplit
  rw [OpArray.block, List.length_take, List.length_append, List.length_cons] at hlength
  have hends := endsBlock_last (List.mem_of_getElem? hblock) (Nat.le_add_right _ front.length)
    (by omega) (block_instruction hsplit)
  simp [Instruction.endsBlock, Instruction.target, hopcode] at hends

namespace Machine

variable {machine : Machine}

theorem jmpZ_simulated (hopcode : instr.opcode = .jmpZ)
    (hmeets : machine.StepMeets instr i (.jmpZBool instr.op1 instr.op2) frame) :
    ∃ outcome, machine.executeStep plan i (.jmpZBool instr.op1 instr.op2) frame = some outcome ∧
      machine.Simulated opArray instr ip i frame outcome := by
  unfold StepMeets at hmeets
  simp only [List.mem_cons, List.not_mem_nil, or_false] at hmeets
  have hoperand (hreads : instr.readsFrame = true)
      (htype : (frame.slots instr.op1).type ≠ .reference) :
      machine.operand opArray instr frame = some (frame.slots instr.op1) :=
    operand_readsFrame hreads fun h => htype h.2
  unfold executeStep
  cases htype : (frame.slots instr.op1).type with
  | true =>
    have hreads : instr.readsFrame = true := hmeets (.inl htype)
    refine ⟨.stop .fallThrough frame, by simp only [htype], hopcode, ?_⟩
    simp only [interpret, hopcode, hoperand hreads (by simp [htype]), Option.bind_some,
      Value.truthy?, htype]
  | false =>
    have hreads : instr.readsFrame = true := hmeets (.inr (.inl htype))
    refine ⟨.stop (.jump instr.op2) frame, by simp only [htype], ?_⟩
    simp only [Simulated, interpret, hopcode, hoperand hreads (by simp [htype]), Option.bind_some,
      Value.truthy?, htype]
  | long =>
    have hreads : instr.readsFrame = true := hmeets (.inr (.inr htype))
    by_cases hzero : (frame.slots instr.op1).raw.val = 0
    · refine ⟨.stop (.jump instr.op2) frame, by simp [htype, hzero], ?_⟩
      simp [Simulated, interpret, hopcode, hoperand hreads (by simp [htype]), Option.bind_some,
        Value.truthy?, htype, hzero]
    · refine ⟨.stop .fallThrough frame, by simp [htype, hzero], hopcode, ?_⟩
      simp [interpret, hopcode, hoperand hreads (by simp [htype]), Option.bind_some,
        Value.truthy?, htype, hzero]
  | _ => exact ⟨.stop .guardFail frame, by simp only [htype], rfl⟩

theorem returnSlot_simulated (hopcode : instr.opcode = .ret)
    (hmeets : machine.StepMeets instr i (.returnSlot instr.op1 instr.op1Type) frame) :
    ∃ outcome,
      machine.executeStep plan i (.returnSlot instr.op1 instr.op1Type) frame = some outcome ∧
      machine.Simulated opArray instr ip i frame outcome := by
  unfold StepMeets at hmeets
  unfold executeStep
  simp only at hmeets ⊢
  generalize hvalue : (if instr.op1Type = .cv then machine.dereferenced frame
    (frame.slots instr.op1) else frame.slots instr.op1) = value at hmeets ⊢
  cases hmatches : machine.returnTypeMatches value with
  | true =>
    have hreads : instr.readsFrame = true := hmeets hmatches
    have hoperand : machine.operand opArray instr frame = some value := by
      rw [← hvalue]
      unfold Instruction.readsFrame at hreads
      unfold operand
      cases hop1 : instr.op1Type <;> simp_all
    refine ⟨.stop (.returned value) frame, by simp only [if_true], ?_⟩
    simp only [Simulated, interpret, hopcode, hoperand, hmatches, if_true]
  | false =>
    exact ⟨.stop .guardFail frame, by simp only [Bool.false_eq_true, if_false], rfl⟩

theorem sendValSlot_simulated (hopcode : instr.opcode = .sendVal)
    (hmeets : machine.StepMeets instr i (.sendValSlot instr.op1 instr.op2) frame) :
    ∃ outcome, machine.executeStep plan i (.sendValSlot instr.op1 instr.op2) frame = some outcome ∧
      machine.Simulated opArray instr ip i frame outcome := by
  obtain ⟨hreads, hundef, hreference, call, calls, hpending, hflag⟩ := hmeets
  refine ⟨.next (frame.write (.argument instr.op2) (frame.slots instr.op1)), ?_,
    .inl ⟨_, _, ?_, rfl⟩⟩
  · simp only [executeStep, hpending, Frame.write]
  · have hcv : ¬(instr.op1Type = .cv ∧ (frame.slots instr.op1).type = .reference) :=
      fun h => hreference h.1 h.2
    have hrejects : ¬(instr.sendFlagged = true ∧
        machine.rejectsByReference call.function instr = true) :=
      fun h => Bool.false_ne_true ((hflag h.1).symm.trans h.2)
    simp [direct, hopcode, hpending, hreads, hundef, hcv, hrejects]

theorem doFcall_simulated (hopcode : instr.opcode = .doFcall)
    (hmeets : machine.StepMeets instr i (.doFcallFastScalar instr.result) frame) :
    ∃ outcome, machine.executeStep plan i (.doFcallFastScalar instr.result) frame = some outcome ∧
      machine.Simulated opArray instr ip i frame outcome := by
  obtain ⟨call, calls, hpending, hmeets⟩ := hmeets
  unfold executeStep
  simp only [hpending]
  by_cases hcompact : machine.compactCall call = true
  · obtain ⟨hresult, hi⟩ := hmeets hcompact
    rw [if_pos hcompact]
    refine ⟨_, rfl, hopcode, Nat.mod_eq_of_lt hi, ?_⟩
    simp only [interpret, hopcode, hpending, hcompact, if_true, calleeReturns]
    obtain htmp | hvar := hresult
    · simp only [htmp, Frame.set]
    · simp only [hvar, Frame.set]
  · rw [if_neg hcompact]
    exact ⟨_, rfl, rfl⟩

/-- A step that meets its condition is simulated by its instruction. -/
theorem executeStep_simulated (hstep : stepOf opArray ip instr = some step)
    (hmeets : machine.StepMeets instr i step frame) :
    ∃ outcome, machine.executeStep plan i step frame = some outcome ∧
      machine.Simulated opArray instr ip i frame outcome := by
  unfold stepOf at hstep
  split at hstep <;> rename_i hopcode
  case h_10 => cases hstep
  case h_3 =>
    cases hstep
    exact jmpZ_simulated hopcode hmeets
  case h_7 =>
    cases hstep
    exact sendValSlot_simulated hopcode hmeets
  case h_8 =>
    cases hstep
    exact doFcall_simulated hopcode hmeets
  case h_9 =>
    cases hstep
    exact returnSlot_simulated hopcode hmeets
  case h_1 | h_2 =>
    obtain ⟨n, hn, rfl⟩ := Option.map_eq_some_iff.mp hstep
    refine ⟨_, rfl, .inl ⟨.slot instr.result, _, ?_, rfl⟩⟩
    simp only [direct, hopcode, Value.asLong_of_type hmeets, hn, Option.bind_eq_bind,
      Option.bind_some, Option.pure_def]
  case h_4 =>
    obtain ⟨n, hn, rfl⟩ := Option.map_eq_some_iff.mp hstep
    unfold StepMeets at hmeets
    unfold executeStep
    cases hdiff : (frame.slots instr.op1).raw.checkedSub n with
    | none => exact ⟨.stop .guardFail frame, by simp only [hdiff], rfl⟩
    | some diff =>
      have hlong : (frame.slots instr.op1).type = .long := hmeets (by rw [hdiff]; rfl)
      refine ⟨.next (frame.set instr.result (.ofLong diff)), by simp only [hdiff],
        .inl ⟨.slot instr.result, .ofLong diff, ?_, rfl⟩⟩
      simp only [direct, hopcode, Value.asLong_of_type hlong, hn, hdiff, Option.bind_eq_bind,
        Option.bind_some, Option.pure_def]
  case h_5 =>
    cases hstep
    unfold StepMeets at hmeets
    unfold executeStep
    cases hsum : (frame.slots instr.op1).raw.checkedAdd (frame.slots instr.op2).raw with
    | none => exact ⟨.stop .guardFail frame, by simp only [hsum], rfl⟩
    | some sum =>
      obtain ⟨hleft, hright⟩ := hmeets (by rw [hsum]; rfl)
      refine ⟨.next (frame.set instr.result (.ofLong sum)), by simp only [hsum],
        .inl ⟨.slot instr.result, .ofLong sum, ?_, rfl⟩⟩
      simp only [direct, hopcode, Value.asLong_of_type hleft, Value.asLong_of_type hright, hsum,
        Option.bind_eq_bind, Option.bind_some, Option.pure_def]
  case h_6 =>
    obtain ⟨common, hcommon, rfl⟩ := Option.map_eq_some_iff.mp hstep
    refine ⟨_, rfl, .inr ⟨hopcode, ?_⟩⟩
    simp only [interpret, hopcode, hcommon]

theorem runFront_concat (h : machine.runFront opArray front ip s = some e)
    (hinstr : machine.interpret opArray (ip + front.length) instr e = .next e') :
    machine.runFront opArray (front ++ [instr]) ip s = some e' := by
  induction front generalizing ip s with
  | nil =>
    cases h
    rw [List.length_nil, Nat.add_zero] at hinstr
    simp only [List.nil_append, runFront, hinstr]
  | cons first front ih =>
    rw [List.length_cons, Nat.add_comm front.length, ← Nat.add_assoc] at hinstr
    rw [List.cons_append]
    unfold runFront at h ⊢
    cases hfirst : machine.interpret opArray ip first s with
    | next frame =>
      simp only [hfirst] at h ⊢
      exact ih h hinstr
    | exit result frame =>
      simp only [hfirst] at h
      cases h

theorem runBlock_of_runFront (h : machine.runFront opArray front ip s = some e)
    (rest : List Instruction) :
    machine.runBlock opArray (front ++ rest) ip s =
      machine.runBlock opArray rest (ip + front.length) e := by
  induction front generalizing ip s with
  | nil =>
    cases h
    rfl
  | cons first front ih =>
    rw [List.cons_append, List.length_cons, Nat.add_comm front.length, ← Nat.add_assoc, runBlock]
    unfold runFront at h
    cases hfirst : machine.interpret opArray ip first s with
    | next frame =>
      simp only [hfirst] at h ⊢
      exact ih h
    | exit result frame =>
      simp only [hfirst] at h
      cases h

/-- A frame reached behind `done`: the instructions in front ran one by one, and on their plain
paths where there is no call among them. -/
structure Reached (machine : Machine) (opArray : OpArray) (block : BlockInfo) (plan : MacroPlan)
    (initial : Frame) (done steps : List MacroStep) (front instrs : List Instruction)
    (frame : Frame) : Prop where
  split : opArray.block block = front ++ instrs
  planned : plan.steps = done ++ steps
  count : (done.countP fun step => !step.isGuard) = front.length
  went : machine.runFront opArray front block.startIp initial = some frame
  straight : NoCalls front → machine.DirectRun opArray front initial frame

namespace Reached

theorem findInstructionIpForStep
    (h : Reached machine opArray block plan initial done steps front instrs frame)
    (hstart : plan.startIp = block.startIp) :
    findInstructionIpForStep plan done.length = block.startIp + front.length := by
  rw [Vm.findInstructionIpForStep, h.planned, List.take_left, h.count, hstart]

theorem instructionAt
    (h : Reached machine opArray block plan initial done steps front (instr :: rest) frame)
    (hstart : plan.startIp = block.startIp) :
    plan.instructionAt opArray done.length = some instr := by
  rw [MacroPlan.instructionAt, h.findInstructionIpForStep hstart]
  exact block_instruction h.split

theorem front_eq
    (h : Reached machine opArray block plan initial done steps front instrs frame)
    (hstart : plan.startIp = block.startIp) : plan.front opArray done.length = front := by
  rw [MacroPlan.front, h.planned, List.take_left, h.count, hstart]
  exact block_front h.split

theorem getElem?_steps
    (h : Reached machine opArray block plan initial done (step :: steps) front instrs frame) :
    plan.steps[done.length]? = some step := by
  rw [h.planned, List.getElem?_append_right (Nat.le_refl _), Nat.sub_self, List.getElem?_cons_zero]

/-- The rest of the block ends as the whole block does. -/
theorem same (h : Reached machine opArray block plan initial done steps front instrs frame) :
    machine.runBlock opArray (opArray.block block) block.startIp initial =
      machine.runBlock opArray instrs (block.startIp + front.length) frame := by
  rw [h.split]
  exact runBlock_of_runFront h.went instrs

/-- Guards leave everything as it was. -/
theorem guarded
    (h : Reached machine opArray block plan initial done (.guardLong slot :: steps) front instrs
      frame) :
    Reached machine opArray block plan initial (done ++ [.guardLong slot]) steps front instrs
      frame :=
  ⟨h.split, by rw [h.planned, List.append_assoc, List.singleton_append],
    by rw [List.countP_append, h.count, List.countP_singleton]; rfl, h.went, h.straight⟩

/-- An instruction that goes on to the next one, for which its step stands. -/
theorem next
    (h : Reached machine opArray block plan initial done (step :: steps) front (instr :: rest)
      frame)
    (hguard : step.isGuard = false)
    (hinterpret : machine.interpret opArray (block.startIp + front.length) instr frame =
      .next frame')
    (hstraight : NoCalls (front ++ [instr]) →
      ∃ l v, machine.direct opArray instr frame = some (l, v) ∧ frame' = frame.write l v) :
    Reached machine opArray block plan initial (done ++ [step]) steps (front ++ [instr]) rest
      frame' := by
  refine ⟨by rw [h.split, List.append_assoc, List.singleton_append],
    by rw [h.planned, List.append_assoc, List.singleton_append],
    by simp [h.count, hguard], runFront_concat h.went hinterpret, fun hnoCalls => ?_⟩
  obtain ⟨l, v, hdirect, rfl⟩ := hstraight hnoCalls
  exact (h.straight hnoCalls.of_append).concat hdirect

/-- A failure leaves the frame of the instructions in front; in front of all calls the block may
start again. -/
theorem guardFail
    (h : Reached machine opArray block plan initial done (step :: steps) front instrs frame)
    (hstart : plan.startIp = block.startIp)
    (hfailed : machine.executeStep plan done.length step frame = some (.stop .guardFail frame)) :
    machine.Equivalent opArray block plan initial .guardFail frame := by
  refine ⟨done.length, ⟨step, h.getElem?_steps, hfailed⟩, ?_, ?_, ?_⟩ <;> rw [h.front_eq hstart]
  · exact h.went
  · intro hnoCalls
    have hshape := (h.straight hnoCalls).agreeOff.shape
    exact ⟨hshape.performed, hshape.pending_length⟩
  · intro hrestartable
    have hrun := h.straight hrestartable.noCalls
    rw [h.same, h.split]
    exact hrun.restart hrestartable.repeatable instrs block.startIp

/-- A step that goes on brings the instruction it stands for behind it. -/
theorem advance
    (h : Reached machine opArray block plan initial done (step :: steps) front (instr :: rest)
      frame)
    (hstep : stepOf opArray (block.startIp + front.length) instr = some step)
    (hsimulated : machine.Simulated opArray instr (block.startIp + front.length) done.length frame
      (.next frame')) :
    Reached machine opArray block plan initial (done ++ [step]) steps (front ++ [instr]) rest
      frame' := by
  apply h.next (isGuard_of_stepOf hstep)
  · obtain ⟨l, v, hdirect, rfl⟩ | ⟨-, hinterpret⟩ := hsimulated
    · exact interpret_of_direct hdirect
    · exact hinterpret
  · intro hnoCalls
    obtain hdirect | ⟨hopcode, -⟩ := hsimulated
    · exact hdirect
    · exact absurd hopcode (hnoCalls instr (by simp)).1

/-- A step that ends the plan, other than by a call, ends it as the block ends. -/
theorem stopped {blockIdx : Nat}
    (h : Reached machine opArray block plan initial done (step :: steps) front (instr :: rest)
      frame)
    (hstart : plan.startIp = block.startIp) (hblock : opArray.blockInfo[blockIdx]? = some block)
    (hexecute : machine.executeStep plan done.length step frame = some (.stop result frame'))
    (hsimulated : machine.Simulated opArray instr (block.startIp + front.length) done.length frame
      (.stop result frame'))
    (hyield : ∀ resumeStep resumeIp resultSlot,
      result ≠ .callYield resumeStep resumeIp resultSlot) :
    machine.Equivalent opArray block plan initial result frame' := by
  have hsame := h.same
  cases result with
  | returned value =>
    rw [runBlock, hsimulated] at hsame
    exact hsame
  | jump targetIp =>
    rw [runBlock, hsimulated] at hsame
    exact hsame
  | fallThrough =>
    obtain ⟨hopcode, hinterpret⟩ := hsimulated
    have hlast := block_jmpZ_last hblock h.split hopcode
    subst hlast
    rw [runBlock, hinterpret] at hsame
    exact hsame
  | guardFail =>
    cases hsimulated
    exact h.guardFail hstart hexecute
  | callYield resumeStep resumeIp resultSlot => exact absurd rfl (hyield _ _ _)

/-- A step that yields at a call brings the call behind it. -/
theorem called
    (h : Reached machine opArray block plan initial done (step :: steps) front (instr :: rest)
      frame)
    (hstep : stepOf opArray (block.startIp + front.length) instr = some step)
    (hsimulated : machine.Simulated opArray instr (block.startIp + front.length) done.length frame
      (.stop (.callYield resumeStep resumeIp resultSlot) frame')) :
    resumeStep = done.length + 1 ∧
      Reached machine opArray block plan initial (done ++ [step]) steps (front ++ [instr]) rest
        (machine.calleeReturns resultSlot frame') := by
  obtain ⟨hopcode, hresume, hinterpret⟩ := hsimulated
  refine ⟨hresume, h.next (isGuard_of_stepOf hstep) hinterpret fun hnoCalls => ?_⟩
  exact absurd hopcode (hnoCalls instr (by simp)).2

end Reached

/-- What follows on the end of `executeMacro`. -/
def resume (machine : Machine) (plan : MacroPlan) (fuel : Nat) :
    MacroResult × Frame → Option (MacroResult × Frame)
  | (.callYield resumeStep _ resultSlot, frame) =>
    machine.runMacro plan fuel resumeStep (machine.calleeReturns resultSlot frame)
  | result => some result

theorem runMacro_succ : machine.runMacro plan (fuel + 1) start frame =
    (machine.executeMacro plan start frame).bind (machine.resume plan fuel) := by
  unfold runMacro
  rw [Option.bind_eq_bind]
  congr 1

theorem executeFrom_next
    (h : machine.executeStep plan i step frame = some (.next frame')) :
    machine.executeFrom plan (step :: steps) i frame =
      machine.executeFrom plan steps (i + 1) frame' := by
  rw [executeFrom, h, Option.bind_eq_bind, Option.bind_some]

theorem executeFrom_stop
    (h : machine.executeStep plan i step frame = some (.stop result frame')) :
    machine.executeFrom plan (step :: steps) i frame = some (result, frame') := by
  rw [executeFrom, h, Option.bind_eq_bind, Option.bind_some]
  rfl

theorem resume_eq (fuel : Nat) (frame : Frame)
    (h : ∀ resumeStep resumeIp resultSlot, result ≠ .callYield resumeStep resumeIp resultSlot) :
    machine.resume plan fuel (result, frame) = some (result, frame) := by
  cases result with
  | callYield resumeStep resumeIp resultSlot => exact absurd rfl (h _ _ _)
  | _ => rfl

/-- The rest of the plan, taken up again behind its calls, ends as the block does. -/
def Ends (machine : Machine) (opArray : OpArray) (block : BlockInfo) (plan : MacroPlan)
    (initial : Frame) (steps : List MacroStep) (i : Nat) (frame : Frame) : Prop :=
  ∃ result frame', (∀ fuel, steps.length ≤ fuel →
      (machine.executeFrom plan steps i frame).bind (machine.resume plan fuel) =
        some (result, frame')) ∧
    machine.Equivalent opArray block plan initial result frame'

namespace Ends

theorem next (hexecute : machine.executeStep plan i step frame = some (.next frame'))
    (h : machine.Ends opArray block plan initial steps (i + 1) frame') :
    machine.Ends opArray block plan initial (step :: steps) i frame := by
  obtain ⟨result, last, hruns, hequivalent⟩ := h
  refine ⟨result, last, fun fuel hfuel => ?_, hequivalent⟩
  rw [executeFrom_next hexecute]
  exact hruns fuel (Nat.le_of_succ_le hfuel)

theorem stop (hexecute : machine.executeStep plan i step frame = some (.stop result frame'))
    (hyield : ∀ resumeStep resumeIp resultSlot,
      result ≠ .callYield resumeStep resumeIp resultSlot)
    (h : machine.Equivalent opArray block plan initial result frame') :
    machine.Ends opArray block plan initial (step :: steps) i frame := by
  refine ⟨result, frame', fun fuel _ => ?_, h⟩
  rw [executeFrom_stop hexecute, Option.bind_some, resume_eq fuel frame' hyield]

theorem call (hexecute : machine.executeStep plan i step frame =
      some (.stop (.callYield (i + 1) resumeIp resultSlot) frame'))
    (hrest : plan.steps.drop (i + 1) = steps)
    (h : machine.Ends opArray block plan initial steps (i + 1)
      (machine.calleeReturns resultSlot frame')) :
    machine.Ends opArray block plan initial (step :: steps) i frame := by
  obtain ⟨result, last, hruns, hequivalent⟩ := h
  refine ⟨result, last, fun fuel hfuel => ?_, hequivalent⟩
  obtain ⟨fuel, rfl⟩ : ∃ n, fuel = n + 1 := Nat.exists_eq_add_one_of_ne_zero (by
    rintro rfl
    cases hfuel)
  rw [executeFrom_stop hexecute, Option.bind_some, resume, runMacro_succ, executeMacro, hrest]
  exact hruns fuel (Nat.le_of_succ_le_succ hfuel)

end Ends

/-- From every frame reached, the rest of the plan ends as the block does. -/
theorem Reached.run {blockIdx : Nat} (hplanned : Planned opArray instrs ip steps)
    (h : Reached machine opArray block plan initial done steps front instrs frame)
    (hip : ip = block.startIp + front.length) (hstart : plan.startIp = block.startIp)
    (hblock : opArray.blockInfo[blockIdx]? = some block)
    (hmeets : machine.Meets opArray plan steps done.length frame) :
    machine.Ends opArray block plan initial steps done.length frame := by
  induction hplanned generalizing done front frame with
  | nil => exact ⟨.fallThrough, frame, fun _ _ => rfl, h.same⟩
  | guarded slot hplanned ih =>
    obtain ⟨-, hrest⟩ := hmeets
    by_cases hlong : (frame.slots slot).type = .long
    · have hpassed : machine.executeStep plan done.length (.guardLong slot) frame =
          some (.next frame) := by
        rw [executeStep, if_neg (not_not_intro hlong)]
      rw [hpassed] at hrest
      have hends := ih h.guarded hip (by simpa using hrest)
      rw [List.length_append, List.length_singleton] at hends
      exact hends.next hpassed
    · have hfailed : machine.executeStep plan done.length (.guardLong slot) frame =
          some (.stop .guardFail frame) := by
        rw [executeStep, if_pos hlong]
      exact .stop hfailed (by simp) (h.guardFail hstart hfailed)
  | @step ip instr step rest steps hstep hplanned ih =>
    subst hip
    obtain ⟨hmeetsStep, hrest⟩ := hmeets
    obtain ⟨outcome, hexecute, hsimulated⟩ :
        ∃ outcome, machine.executeStep plan done.length step frame = some outcome ∧
          machine.Simulated opArray instr (block.startIp + front.length) done.length frame
            outcome := executeStep_simulated hstep (hmeetsStep _ (h.instructionAt hstart))
    rw [hexecute] at hrest
    have hnextIp : block.startIp + front.length + 1 =
        block.startIp + (front ++ [instr]).length := by simp [Nat.add_assoc]
    cases outcome with
    | next frame' =>
      have hends := ih (h.advance hstep hsimulated) hnextIp (by simpa using hrest)
      rw [List.length_append, List.length_singleton] at hends
      exact hends.next hexecute
    | stop result frame' =>
      by_cases hyield : ∃ resumeStep resumeIp resultSlot,
          result = .callYield resumeStep resumeIp resultSlot
      · obtain ⟨resumeStep, resumeIp, resultSlot, rfl⟩ := hyield
        obtain ⟨rfl, hnext⟩ := h.called hstep hsimulated
        have hends := ih hnext hnextIp (by simpa using hrest)
        rw [List.length_append, List.length_singleton] at hends
        have hdrop : plan.steps.drop (done.length + 1) = steps := by
          rw [hnext.planned, List.drop_left' (by simp)]
        exact hends.call hexecute hdrop
      · have hend (resumeStep resumeIp resultSlot) :
            result ≠ .callYield resumeStep resumeIp resultSlot :=
          fun hresult => hyield ⟨_, _, _, hresult⟩
        exact .stop hexecute hend (h.stopped hstart hblock hexecute hsimulated hend)

theorem executeStep_callYield (h : machine.executeStep plan i step frame =
    some (.stop (.callYield resumeStep resumeIp resultSlot) frame')) :
    step = .doFcallFastScalar resultSlot ∧ resumeStep = (i + 1) % 65536 ∧
      resumeIp = findInstructionIpForStep plan i + 1 := by
  unfold executeStep at h
  cases step with
  | doFcallFastScalar slot => grind
  | _ => grind

/-- A run that yields has come to the call step that yields. -/
theorem executeFrom_callYield (hsteps : ∀ k, steps[k]? = plan.steps[i + k]?)
    (h : machine.executeFrom plan steps i frame =
      some (.callYield resumeStep resumeIp resultSlot, frame')) :
    ∃ j before step, machine.GoesOn plan i frame j before ∧ plan.steps[j]? = some step ∧
      machine.executeStep plan j step before =
        some (.stop (.callYield resumeStep resumeIp resultSlot) frame') := by
  induction steps generalizing i frame with
  | nil => simp [executeFrom] at h
  | cons step steps ih =>
    rw [executeFrom, Option.bind_eq_bind, Option.bind_eq_some_iff] at h
    obtain ⟨outcome, hexecute, h⟩ := h
    have hi : plan.steps[i]? = some step := (hsteps 0).symm
    cases outcome with
    | next next =>
      have hlater (k : Nat) : steps[k]? = plan.steps[i + 1 + k]? := by
        have hk := hsteps (k + 1)
        rwa [List.getElem?_cons_succ, ← Nat.add_assoc, Nat.add_right_comm] at hk
      obtain ⟨j, before, last, hgoes, hlast⟩ := ih hlater h
      exact ⟨j, before, last, .step hi hexecute hgoes, hlast⟩
    | stop result frame =>
      cases h
      exact ⟨i, frame, step, .refl, hi, hexecute⟩

theorem planned_resumesBehindCall (hstart : plan.startIp = block.startIp)
    (hsteps : planFrom opArray (opArray.block block) block.startIp 0 = some plan.steps) :
    machine.ResumesBehindCall opArray block plan := by
  intro start frame resumeStep resumeIp resultSlot frame' h
  obtain ⟨j, before, step, hgoes, hj, hstep⟩ :=
    executeFrom_callYield (fun k => List.getElem?_drop) h
  obtain ⟨rfl, hresume, hip⟩ := executeStep_callYield hstep
  obtain ⟨k, instr, hk, hopcode, hresult, hfront, hcount⟩ := planFrom_doFcall hsteps hj
  refine ⟨j, before, hgoes, hj, hstep, k, instr, hfront, hk, hopcode, hresult, hresume, ?_⟩
  rw [hip, findInstructionIpForStep, hstart, hcount]

end Machine

/-- A machine whose calls all return one integer. -/
def answering (n : I64) : Machine where
  typesMatch _ _ := true
  returnTypeMatches _ := true
  rejectsByReference _ _ := false
  referent _ value := value
  answer _ := .ofLong n
  general _ frame := .exit (.general 0) frame

def oneArgument : FunctionCommon :=
  ⟨7, .user, false, .fastScalar, false, 0, .fast, [.int], 1, 1⟩

/-- `return f($n) + ($n - 1);` -/
def sumOfCall : OpArray where
  hasTryEntries := false
  isGenerator := false
  hasGlobalVars := false
  hasStaticVars := false
  instructions :=
    [⟨.initFcall, 1, .const, 0, 0, .unused, false⟩, ⟨.sendVal, 0, .cv, 0, 0, .unused, false⟩,
      ⟨.doFcall, 0, .unused, 0, 1, .tmp, false⟩, ⟨.subCvConst, 0, .cv, 0, 2, .tmp, false⟩,
      ⟨.addTmpTmp, 1, .tmp, 2, 3, .tmp, false⟩, ⟨.ret, 3, .tmp, 0, 0, .unused, false⟩]
  literals := [.ofLong (.wrap 1)]
  cache := [some oneArgument, none, none, none, none, none]

def sumOfCallPlan : MacroPlan :=
  ⟨[.initFcallCached oneArgument 1, .sendValSlot 0 0, .doFcallFastScalar 1, .guardLong 0,
    .subLongConst 0 (.wrap 1) 2, .addLongLong 1 2 3, .returnSlot 3 .tmp], 0, 5⟩

/-- The frame with an integer in its variable. -/
def withArgument (n : I64) : Frame := ⟨fun slot => if slot = 0 then .ofLong n else .undef, [], []⟩

theorem planHotBlock_sumOfCall : planHotBlock sumOfCall 0 = some sumOfCallPlan := by rfl

theorem sumOfCall_meets_sum {frame : Frame} (n : I64) (hleft : (frame.slots 1).type = .long)
    (hright : (frame.slots 2).type = .long) :
    (answering n).Meets sumOfCall sumOfCallPlan [.addLongLong 1 2 3, .returnSlot 3 .tmp] 5
      frame := by
  refine And.intro (fun _ _ _ => ⟨hleft, hright⟩) ?_
  simp only [Machine.executeStep]
  cases hsum : (frame.slots 1).raw.checkedAdd (frame.slots 2).raw with
  | none => trivial
  | some sum =>
    simp only
    refine And.intro (fun instr hinstr _ => ?_) trivial
    obtain rfl := Option.some.inj hinstr
    rfl

theorem sumOfCall_meets (n : I64) :
    (answering n).Meets sumOfCall sumOfCallPlan sumOfCallPlan.steps 0 (withArgument (.wrap 2)) := by
  refine And.intro ?_ (And.intro ?_ (And.intro ?_ (And.intro ?_ (And.intro ?_
    (sumOfCall_meets_sum n rfl rfl)))))
  all_goals
    intro instr hinstr
    obtain rfl := Option.some.inj hinstr
  · trivial
  · exact ⟨rfl, by decide, by decide, _, _, rfl, fun _ => rfl⟩
  · exact ⟨_, _, rfl, fun _ => ⟨.inl rfl, by decide⟩⟩
  · trivial
  · exact fun _ => rfl

end Rphp.Vm
