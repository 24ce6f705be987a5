import Rphp.Vm.MacroPlan

namespace Rphp.Vm
set_option autoImplicit true

/-- What an instruction of a planned block writes: a slot, or an argument of the innermost
pending call. -/
inductive Location
  | slot (index : Nat)
  | argument (index : Nat)
  deriving DecidableEq

namespace Frame

def write (frame : Frame) : Location → Value → Frame
  | .slot index, value => frame.set index value
  | .argument index, value =>
    match frame.pending with
    | [] => frame
    | call :: pending => { frame with pending := call.send index value :: pending }

def read (frame : Frame) : Location → Value
  | .slot index => frame.slots index
  | .argument index =>
    match frame.pending with
    | [] => .undef
    | call :: _ => call.arguments index

/-- Two frames differ in slots and in arguments of the innermost pending call only. -/
structure SameShape (s t : Frame) : Prop where
  tail : t.pending.tail = s.pending.tail
  head : t.pending.head?.map Call.function = s.pending.head?.map Call.function
  performed : t.performed = s.performed

theorem SameShape.refl (s : Frame) : SameShape s s := ⟨rfl, rfl, rfl⟩

theorem SameShape.symm (h : SameShape s t) : SameShape t s :=
  ⟨h.tail.symm, h.head.symm, h.performed.symm⟩

theorem SameShape.trans (hst : SameShape s t) (htu : SameShape t u) : SameShape s u :=
  ⟨htu.tail.trans hst.tail, htu.head.trans hst.head, htu.performed.trans hst.performed⟩

/-- The pending calls of two such frames have the same functions. -/
theorem SameShape.pending (h : SameShape s t) : s.pending = [] ∧ t.pending = [] ∨
    ∃ c d calls, s.pending = c :: calls ∧ t.pending = d :: calls ∧ d.function = c.function := by
  have htail := h.tail
  have hhead := h.head
  cases hs : s.pending with
  | nil =>
    cases ht : t.pending with
    | nil => exact .inl ⟨rfl, rfl⟩
    | cons d calls => simp [hs, ht] at hhead
  | cons c calls =>
    cases ht : t.pending with
    | nil => simp [hs, ht] at hhead
    | cons d rest =>
      simp only [hs, ht, List.tail_cons] at htail
      simp only [hs, ht, List.head?_cons, Option.map_some, Option.some.injEq] at hhead
      exact .inr ⟨c, d, calls, rfl, by rw [htail], hhead⟩

theorem SameShape.pending_length (h : SameShape s t) : t.pending.length = s.pending.length := by
  obtain ⟨hs, ht⟩ | ⟨c, d, calls, hs, ht, -⟩ := h.pending
  · rw [hs, ht]
  · rw [hs, ht, List.length_cons, List.length_cons]

theorem sameShape_write (frame : Frame) (l : Location) (v : Value) :
    SameShape frame (frame.write l v) := by
  cases l with
  | slot index => exact ⟨rfl, rfl, rfl⟩
  | argument index =>
    unfold write
    cases hpending : frame.pending with
    | nil => exact .refl frame
    | cons call calls => exact ⟨by simp [hpending], by simp [hpending, Call.send], rfl⟩

theorem read_write_of_ne (h : l' ≠ l) : (Frame.write frame l v).read l' = frame.read l' := by
  cases l with
  | slot index =>
    cases l' with
    | slot other =>
      have hne : other ≠ index := fun he => h (he ▸ rfl)
      simp only [write, read, set, hne, if_false]
    | argument other => rfl
  | argument index =>
    unfold write
    cases hpending : frame.pending with
    | nil => rfl
    | cons call calls =>
      cases l' with
      | slot other => rfl
      | argument other =>
        have hne : other ≠ index := fun he => h (he ▸ rfl)
        simp only [read, hpending, Call.send, hne, if_false]

theorem SameShape.read_write (h : SameShape s t) : (t.write l v).read l = (s.write l v).read l := by
  cases l with
  | slot index => simp only [write, read, set, if_true]
  | argument index =>
    obtain ⟨hs, ht⟩ | ⟨c, d, calls, hs, ht, -⟩ := h.pending
    · simp only [write, read, hs, ht]
    · simp only [write, read, hs, ht, Call.send, if_true]

/-- Frames of one shape with the same contents are the same. -/
theorem SameShape.ext (h : SameShape s t) (hread : ∀ l, t.read l = s.read l) : t = s := by
  have hslots : t.slots = s.slots := funext fun x => hread (.slot x)
  have hpending : t.pending = s.pending := by
    obtain ⟨hs, ht⟩ | ⟨c, d, calls, hs, ht, hfunction⟩ := h.pending
    · rw [hs, ht]
    · have harguments : d.arguments = c.arguments := by
        funext x
        simpa only [read, hs, ht] using hread (.argument x)
      have hcall : d = c := by
        cases c
        cases d
        simp_all
      rw [hs, ht, hcall]
  have hperformed := h.performed
  cases s
  cases t
  simp_all

end Frame

namespace Instruction

def reads (instr : Instruction) : List Nat :=
  match instr.opcode with
  | .isSmallerOrEqualCvConst | .isSmallerCvConst | .subCvConst | .sendVal => [instr.op1]
  | .addTmpTmp => [instr.op1, instr.op2]
  | _ => []

def writes (instr : Instruction) : Option Location :=
  match instr.opcode with
  | .isSmallerOrEqualCvConst | .isSmallerCvConst | .subCvConst | .addTmpTmp =>
    some (.slot instr.result)
  | .sendVal => some (.argument instr.op2)
  | _ => none

/-- The first operand is a slot of the frame. -/
def readsFrame (instr : Instruction) : Bool :=
  instr.op1Type = .tmp || instr.op1Type = .var || instr.op1Type = .cv

end Instruction

/-- No instruction reads a slot that it or a later one writes, unless it has been written in front
of it. -/
def Repeatable (written : List Location) : List Instruction → Prop
  | [] => True
  | instr :: rest =>
    (∀ slot ∈ instr.reads, .slot slot ∈ written ∨
      ∀ other ∈ instr :: rest, other.writes ≠ some (.slot slot)) ∧
      Repeatable (instr.writes.toList ++ written) rest

/-- The instructions neither begin nor perform a call. -/
def NoCalls (front : List Instruction) : Prop :=
  ∀ instr ∈ front, instr.opcode ≠ .initFcall ∧ instr.opcode ≠ .doFcall

theorem NoCalls.of_append (h : NoCalls (front ++ rest)) : NoCalls front :=
  fun instr hinstr => h instr (List.mem_append_left rest hinstr)

/-- The instructions can be run again behind themselves. -/
structure Restartable (front : List Instruction) : Prop where
  noCalls : NoCalls front
  repeatable : Repeatable [] front

namespace Machine

variable (machine : Machine)

/-- What an instruction writes on the plain path for integers and sent values. -/
def direct (opArray : OpArray) (instr : Instruction) (frame : Frame) :
    Option (Location × Value) :=
  match instr.opcode with
  | .isSmallerOrEqualCvConst => do
    let left ← (frame.slots instr.op1).asLong
    let right ← opArray.longLiteral instr.op2
    return (.slot instr.result, .ofBool (left.val ≤ right.val))
  | .isSmallerCvConst => do
    let left ← (frame.slots instr.op1).asLong
    let right ← opArray.longLiteral instr.op2
    return (.slot instr.result, .ofBool (left.val < right.val))
  | .subCvConst => do
    let left ← (frame.slots instr.op1).asLong
    let right ← opArray.longLiteral instr.op2
    let diff ← left.checkedSub right
    return (.slot instr.result, .ofLong diff)
  | .addTmpTmp => do
    let left ← (frame.slots instr.op1).asLong
    let right ← (frame.slots instr.op2).asLong
    let sum ← left.checkedAdd right
    return (.slot instr.result, .ofLong sum)
  | .sendVal => do
    let call ← frame.pending.head?
    if instr.readsFrame && (frame.slots instr.op1).type ≠ .undef &&
        !(instr.op1Type = .cv && (frame.slots instr.op1).type = .reference) &&
        !(instr.sendFlagged && machine.rejectsByReference call.function instr)
    then some (.argument instr.op2, frame.slots instr.op1)
    else none
  | _ => none

variable {machine}

theorem writes_of_direct (h : machine.direct opArray instr frame = some (l, v)) :
    instr.writes = some l := by
  unfold direct at h
  unfold Instruction.writes
  split at h
  case h_6 => cases h
  all_goals
    simp only [Option.bind_eq_bind, Option.bind_eq_some_iff, Option.pure_def, Option.some.injEq,
      Prod.mk.injEq, Option.ite_none_right_eq_some] at h
    grind

/-- The plain path depends on the slots read and on the shape of the frame only. -/
theorem direct_congr (hshape : Frame.SameShape s t)
    (hreads : ∀ x ∈ instr.reads, t.slots x = s.slots x) :
    machine.direct opArray instr t = machine.direct opArray instr s := by
  unfold Instruction.reads at hreads
  unfold direct
  split
  case h_6 => rfl
  case h_5 hopcode =>
    rw [hopcode] at hreads
    rw [hreads instr.op1 (List.mem_singleton_self _)]
    obtain ⟨hs, ht⟩ | ⟨c, d, calls, hs, ht, hfunction⟩ := hshape.pending
    · rw [hs, ht]
    · simp only [hs, ht, List.head?_cons, Option.bind_eq_bind, Option.bind_some, hfunction]
  case h_4 hopcode =>
    rw [hopcode] at hreads
    rw [hreads instr.op1 (by simp), hreads instr.op2 (by simp)]
  all_goals
    rename_i hopcode
    rw [hopcode] at hreads
    rw [hreads instr.op1 (List.mem_singleton_self _)]

theorem operand_readsFrame (h : instr.readsFrame = true)
    (hreference : ¬(instr.op1Type = .cv ∧ (frame.slots instr.op1).type = .reference)) :
    machine.operand opArray instr frame = some (frame.slots instr.op1) := by
  unfold Instruction.readsFrame at h
  unfold operand dereferenced
  cases hop1 : instr.op1Type with
  | const => simp [hop1] at h
  | unused => simp [hop1] at h
  | tmp => rfl
  | var => rfl
  | cv =>
    have hne : (frame.slots instr.op1).type ≠ .reference := fun he => hreference ⟨hop1, he⟩
    simp only [hne, if_false]

theorem interpret_of_direct (h : machine.direct opArray instr frame = some (l, v)) :
    machine.interpret opArray ip instr frame = .next (frame.write l v) := by
  unfold direct at h
  unfold interpret
  split at h
  case h_6 => cases h
  case h_5 hopcode =>
    rw [hopcode]
    simp only [Option.bind_eq_bind, Option.bind_eq_some_iff, Option.ite_none_right_eq_some,
      Bool.and_eq_true, decide_eq_true_eq, Bool.not_eq_true', Bool.and_eq_false_iff,
      decide_eq_false_iff_not, Option.some.injEq, Prod.mk.injEq] at h
    obtain ⟨call, hcall, ⟨⟨⟨hreads, hundef⟩, hreference⟩, hflag⟩, rfl, rfl⟩ := h
    obtain ⟨calls, hpending⟩ := List.head?_eq_some_iff.mp hcall
    rw [operand_readsFrame hreads (by tauto)]
    have hrejects : (instr.sendFlagged && machine.rejectsByReference call.function instr) = false :=
      Bool.and_eq_false_iff.mpr hflag
    simp only [hpending, hrejects, hundef, Bool.false_eq_true, if_false, Frame.write]
  all_goals
    rename_i hopcode
    rw [hopcode]
    simp only [Option.bind_eq_bind, Option.bind_eq_some_iff, Option.pure_def, Option.some.injEq,
      Prod.mk.injEq] at h
    grind [Frame.write]

/-- The instructions run on their plain paths. -/
def DirectRun (machine : Machine) (opArray : OpArray) : List Instruction → Frame → Frame → Prop
  | [], s, e => e = s
  | instr :: rest, s, e =>
    ∃ l v, machine.direct opArray instr s = some (l, v) ∧
      machine.DirectRun opArray rest (s.write l v) e

theorem DirectRun.concat (h : machine.DirectRun opArray front s e)
    (hinstr : machine.direct opArray instr e = some (l, v)) :
    machine.DirectRun opArray (front ++ [instr]) s (e.write l v) := by
  induction front generalizing s with
  | nil =>
    cases h
    exact ⟨l, v, hinstr, rfl⟩
  | cons first front ih =>
    obtain ⟨l', v', hfirst, hrest⟩ := h
    exact ⟨l', v', hfirst, ih hrest⟩

/-- Two frames of one shape agree on what has been written, and on everything that the
instructions do not write. -/
structure AgreeOff (written : List Location) (front : List Instruction) (s t : Frame) : Prop where
  shape : Frame.SameShape s t
  read : ∀ l, (l ∈ written ∨ ∀ instr ∈ front, instr.writes ≠ some l) → t.read l = s.read l

theorem AgreeOff.write (h : AgreeOff written (instr :: front) s t)
    (hwrites : instr.writes = some l) :
    AgreeOff (l :: written) front (s.write l v) (t.write l v) := by
  refine ⟨(s.sameShape_write l v).symm.trans (h.shape.trans (t.sameShape_write l v)), ?_⟩
  intro l' hl'
  by_cases heq : l' = l
  · subst heq
    exact h.shape.read_write
  · rw [Frame.read_write_of_ne heq, Frame.read_write_of_ne heq]
    apply h.read l'
    obtain hmem | hfront := hl'
    · exact .inl ((List.mem_cons.mp hmem).resolve_left heq)
    · refine .inr fun other hother => ?_
      obtain rfl | hrest := List.mem_cons.mp hother
      · rw [hwrites]
        exact fun he => heq (Option.some.inj he).symm
      · exact hfront other hrest

theorem DirectRun.agreeOff (h : machine.DirectRun opArray front s e) : AgreeOff [] front s e := by
  induction front generalizing s with
  | nil =>
    cases h
    exact ⟨.refl _, fun _ _ => rfl⟩
  | cons instr front ih =>
    obtain ⟨l, v, hinstr, hrest⟩ := h
    have hwrites := writes_of_direct hinstr
    refine ⟨(Frame.sameShape_write _ l v).trans (ih hrest).shape, fun l' hl' => ?_⟩
    have hoff := hl'.resolve_left List.not_mem_nil
    have hne : l' ≠ l := fun he => hoff instr List.mem_cons_self (by rw [hwrites, he])
    rw [(ih hrest).read l' (.inr fun other hother => hoff other (List.mem_cons_of_mem _ hother)),
      Frame.read_write_of_ne hne]

/-- Repeatable instructions run from any frame that differs in what they are still to write alone
end in the same frame. -/
theorem DirectRun.replay (h : machine.DirectRun opArray front s e)
    (hrepeat : Repeatable written front) (hagree : AgreeOff written front s t)
    (rest : List Instruction) (ip : Nat) :
    machine.runBlock opArray (front ++ rest) ip t =
      machine.runBlock opArray rest (ip + front.length) e := by
  induction front generalizing s t ip written with
  | nil =>
    cases h
    have hsame := hagree.shape.ext fun l =>
      hagree.read l (.inr fun _ hmem => (List.not_mem_nil hmem).elim)
    rw [hsame, List.nil_append, List.length_nil, Nat.add_zero]
  | cons instr front ih =>
    obtain ⟨l, v, hinstr, hrest⟩ := h
    have hwrites := writes_of_direct hinstr
    have hdirect : machine.direct opArray instr t = some (l, v) :=
      (direct_congr hagree.shape fun x hx => hagree.read (.slot x) (hrepeat.1 x hx)).trans hinstr
    have hlater : Repeatable (l :: written) front := by simpa [hwrites] using hrepeat.2
    have hnext := ih hrest hlater (hagree.write hwrites) (ip + 1)
    rw [List.cons_append, runBlock, interpret_of_direct hdirect, List.length_cons]
    simp only
    rw [hnext, Nat.add_right_comm, Nat.add_assoc]

/-- Restarting behind such instructions leads to the same place. -/
theorem DirectRun.restart (h : machine.DirectRun opArray front s e)
    (hrepeat : Repeatable [] front) (rest : List Instruction) (ip : Nat) :
    machine.runBlock opArray (front ++ rest) ip e =
      machine.runBlock opArray rest (ip + front.length) e :=
  h.replay hrepeat h.agreeOff rest ip

end Machine

/-- The step of an instruction, without the guard in front of it. -/
def stepOf (opArray : OpArray) (ip : Nat) (instr : Instruction) : Option MacroStep :=
  match instr.opcode with
  | .isSmallerOrEqualCvConst =>
    (opArray.longLiteral instr.op2).map fun n => .cmpLeLongConst instr.op1 n instr.result
  | .isSmallerCvConst =>
    (opArray.longLiteral instr.op2).map fun n => .cmpLtLongConst instr.op1 n instr.result
  | .jmpZ => some (.jmpZBool instr.op1 instr.op2)
  | .subCvConst =>
    (opArray.longLiteral instr.op2).map fun n => .subLongConst instr.op1 n instr.result
  | .addTmpTmp => some (.addLongLong instr.op1 instr.op2 instr.result)
  | .initFcall => opArray.cache[ip]?.join.map fun common => .initFcallCached common instr.op1
  | .sendVal => some (.sendValSlot instr.op1 instr.op2)
  | .doFcall => some (.doFcallFastScalar instr.result)
  | .ret => some (.returnSlot instr.op1 instr.op1Type)
  | _ => none

/-- The steps of the instructions from one on, with guards anywhere in front of them. -/
inductive Planned (opArray : OpArray) : List Instruction → Nat → List MacroStep → Prop
  | nil : Planned opArray [] ip []
  | guarded (slot : Nat) (h : Planned opArray (instr :: rest) ip steps) :
      Planned opArray (instr :: rest) ip (.guardLong slot :: steps)
  | step (hstep : stepOf opArray ip instr = some step)
      (h : Planned opArray rest (ip + 1) steps) : Planned opArray (instr :: rest) ip (step :: steps)

theorem ensureGuardLong_cases (guarded : BitVec 64) (slot : Nat) :
    (ensureGuardLong guarded slot).1 = [] ∨
      (ensureGuardLong guarded slot).1 = [.guardLong slot] := by
  unfold ensureGuardLong
  split
  · simp only
    split
    · exact .inr rfl
    · exact .inl rfl
  · exact .inl rfl

theorem planInstruction_cases
    (h : planInstruction opArray ip guarded instr = some (steps, guarded')) :
    ∃ step, stepOf opArray ip instr = some step ∧
      (steps = [step] ∨ ∃ slot, steps = [.guardLong slot, step]) := by
  have hguard := ensureGuardLong_cases guarded instr.op1
  cases hopcode : instr.opcode with
  | initFcall =>
    simp only [planInstruction, hopcode, Option.bind_eq_bind, Option.bind_eq_some_iff] at h
    obtain ⟨common, hcommon, h⟩ := h
    split at h
    · cases h
    · split at h
      · cases h
      · cases h
        exact ⟨_, by simp only [stepOf, hopcode, hcommon, Option.map_some], .inl rfl⟩
  | jmpZ | addTmpTmp | sendVal | doFcall | ret =>
    simp only [planInstruction, hopcode] at h
    cases h
    exact ⟨_, by simp only [stepOf, hopcode], .inl rfl⟩
  | isSmallerOrEqualCvConst | isSmallerCvConst | subCvConst =>
    simp only [planInstruction, hopcode, Option.bind_eq_bind, Option.bind_eq_some_iff,
      Option.pure_def, Option.some.injEq, Prod.mk.injEq] at h
    obtain ⟨longVal, hlong, hsteps, -⟩ := h
    refine ⟨_, (by simp only [stepOf, hopcode, hlong, Option.map_some]; rfl), ?_⟩
    obtain hnone | hsome := hguard
    · rw [hnone] at hsteps
      exact .inl hsteps.symm
    · rw [hsome] at hsteps
      exact .inr ⟨_, hsteps.symm⟩
  | _ => simp only [planInstruction, hopcode, reduceCtorEq] at h

theorem planned_of_planFrom {instrs : List Instruction}
    (h : planFrom opArray instrs ip guarded = some steps) : Planned opArray instrs ip steps := by
  induction instrs generalizing ip guarded steps with
  | nil =>
    cases h
    exact .nil
  | cons instr rest ih =>
    simp only [planFrom, Option.bind_eq_bind, Option.bind_eq_some_iff] at h
    obtain ⟨⟨front, guarded'⟩, hinstr, tail, htail, hsteps⟩ := h
    cases hsteps
    obtain ⟨step, hstep, rfl | ⟨slot, rfl⟩⟩ := planInstruction_cases hinstr
    · exact .step hstep (ih htail)
    · exact .guarded slot (.step hstep (ih htail))

theorem planHotBlock_steps (hplan : planHotBlock opArray blockIdx = some plan)
    (hblock : opArray.blockInfo[blockIdx]? = some block) :
    plan.startIp = block.startIp ∧
      planFrom opArray (opArray.block block) block.startIp 0 = some plan.steps := by
  unfold planHotBlock at hplan
  split at hplan
  · cases hplan
  · simp only [hblock, Option.bind_eq_bind, Option.bind_some] at hplan
    split at hplan
    · cases hplan
    · obtain ⟨steps, hsteps, hplan⟩ := Option.bind_eq_some_iff.mp hplan
      split at hplan
      · cases hplan
      · cases hplan
        exact ⟨rfl, hsteps⟩

theorem isGuard_of_stepOf (h : stepOf opArray ip instr = some step) : step.isGuard = false := by
  unfold stepOf at h
  split at h
  case h_10 => cases h
  case h_3 | h_5 | h_7 | h_8 | h_9 =>
    cases h
    rfl
  all_goals
    obtain ⟨value, -, rfl⟩ := Option.map_eq_some_iff.mp h
    rfl

theorem doFcall_of_stepOf (h : stepOf opArray ip instr = some (.doFcallFastScalar slot)) :
    instr.opcode = .doFcall ∧ instr.result = slot := by
  unfold stepOf at h
  split at h <;> simp_all

theorem planInstruction_doFcall
    (h : planInstruction opArray ip guarded instr = some (steps, guarded'))
    (hj : steps[j]? = some (.doFcallFastScalar slot)) :
    j = 0 ∧ instr.opcode = .doFcall ∧ instr.result = slot := by
  obtain ⟨step, hstep, rfl | ⟨other, rfl⟩⟩ := planInstruction_cases h
  · cases j with
    | zero =>
      rw [List.getElem?_cons_zero, Option.some.injEq] at hj
      subst hj
      exact ⟨rfl, doFcall_of_stepOf hstep⟩
    | succ j => simp at hj
  · cases j with
    | zero => simp at hj
    | succ j =>
      cases j with
      | zero =>
        rw [List.getElem?_cons_succ, List.getElem?_cons_zero, Option.some.injEq] at hj
        subst hj
        have hcall := (doFcall_of_stepOf hstep).1
        simp [planInstruction, hcall] at h
      | succ j => simp at hj

theorem planInstruction_countP
    (h : planInstruction opArray ip guarded instr = some (steps, guarded')) :
    (steps.countP fun step => !step.isGuard) = 1 := by
  obtain ⟨step, hstep, rfl | ⟨slot, rfl⟩⟩ := planInstruction_cases h
  · simp [isGuard_of_stepOf hstep]
  · rw [List.countP_cons_of_neg (by simp [MacroStep.isGuard])]
    simp [isGuard_of_stepOf hstep]

/-- A call of the plan is the step of a call among the instructions, and the steps in front of it
are those of the instructions in front. -/
theorem planFrom_doFcall {instrs : List Instruction}
    (h : planFrom opArray instrs ip guarded = some steps)
    (hj : steps[j]? = some (.doFcallFastScalar slot)) :
    ∃ k instr, instrs[k]? = some instr ∧ instr.opcode = .doFcall ∧ instr.result = slot ∧
      planFrom opArray (instrs.take k) ip guarded = some (steps.take j) ∧
      ((steps.take j).countP fun step => !step.isGuard) = k := by
  induction instrs generalizing ip guarded steps j with
  | nil =>
    cases h
    simp at hj
  | cons instr rest ih =>
    simp only [planFrom, Option.bind_eq_bind, Option.bind_eq_some_iff] at h
    obtain ⟨⟨front, guarded'⟩, hinstr, tail, htail, hsteps⟩ := h
    cases hsteps
    by_cases hlt : j < front.length
    · rw [List.getElem?_append_left hlt] at hj
      obtain ⟨rfl, hopcode, hresult⟩ := planInstruction_doFcall hinstr hj
      exact ⟨0, instr, rfl, hopcode, hresult, rfl, rfl⟩
    · obtain ⟨j, rfl⟩ := Nat.exists_eq_add_of_le (Nat.le_of_not_lt hlt)
      rw [List.getElem?_append_right (Nat.le_add_right _ _), Nat.add_sub_cancel_left] at hj
      obtain ⟨k, other, hk, hopcode, hresult, hfront, hcount⟩ := ih htail hj
      refine ⟨k + 1, other, hk, hopcode, hresult, ?_, ?_⟩
      · simp only [List.take_succ_cons, planFrom, hinstr, hfront, Option.bind_eq_bind,
          Option.bind_some, Option.pure_def, List.take_length_add_append]
      · rw [List.take_length_add_append, List.countP_append, planInstruction_countP hinstr, hcount,
          Nat.add_comm]

/-- The instruction that a step or the guard in front of it stands for. -/
def MacroPlan.instructionAt (plan : MacroPlan) (opArray : OpArray) (i : Nat) : Option Instruction :=
  opArray.instructions[findInstructionIpForStep plan i]?

/-- The instructions of the block in front of a step. -/
def MacroPlan.front (plan : MacroPlan) (opArray : OpArray) (i : Nat) : List Instruction :=
  (opArray.instructions.drop plan.startIp).take
    ((plan.steps.take i).countP fun step => !step.isGuard)

namespace Machine

variable (machine : Machine)

/-- The frame behind instructions that all go on to the next one. -/
def runFront (opArray : OpArray) : List Instruction → Nat → Frame → Option Frame
  | [], _, frame => some frame
  | instr :: rest, ip, frame =>
    match machine.interpret opArray ip instr frame with
    | .next frame => runFront opArray rest (ip + 1) frame
    | .exit _ _ => none

/-- What a step takes for granted: its operands are integers where it reads them as such, slots of
the frame where it reads slots, and neither undefined nor a reference where it sends them. -/
def StepMeets (instr : Instruction) (i : Nat) (step : MacroStep) (frame : Frame) : Prop :=
  match step with
  | .guardLong _ | .initFcallCached _ _ => True
  | .cmpLeLongConst cvSlot _ _ | .cmpLtLongConst cvSlot _ _ => (frame.slots cvSlot).type = .long
  | .subLongConst cvSlot constVal _ =>
    ((frame.slots cvSlot).raw.checkedSub constVal).isSome → (frame.slots cvSlot).type = .long
  | .addLongLong aSlot bSlot _ =>
    ((frame.slots aSlot).raw.checkedAdd (frame.slots bSlot).raw).isSome →
      (frame.slots aSlot).type = .long ∧ (frame.slots bSlot).type = .long
  | .jmpZBool condSlot _ =>
    (frame.slots condSlot).type ∈ [.true, .false, .long] → instr.readsFrame = true
  | .returnSlot slot slotType =>
    machine.returnTypeMatches
        (if slotType = .cv then machine.dereferenced frame (frame.slots slot)
          else frame.slots slot) → instr.readsFrame = true
  | .sendValSlot srcSlot _ =>
    instr.readsFrame = true ∧ (frame.slots srcSlot).type ≠ .undef ∧
      (instr.op1Type = .cv → (frame.slots srcSlot).type ≠ .reference) ∧
      ∃ call calls, frame.pending = call :: calls ∧
        (instr.sendFlagged → machine.rejectsByReference call.function instr = false)
  | .doFcallFastScalar _ =>
    ∃ call calls, frame.pending = call :: calls ∧
      (machine.compactCall call → (instr.resultType = .tmp ∨ instr.resultType = .var) ∧
        i + 1 < 65536)

/-- Every step that a run of the plan takes from one on meets its condition. -/
def Meets (opArray : OpArray) (plan : MacroPlan) : List MacroStep → Nat → Frame → Prop
  | [], _, _ => True
  | step :: rest, i, frame =>
    (∀ instr, plan.instructionAt opArray i = some instr → machine.StepMeets instr i step frame) ∧
    match machine.executeStep plan i step frame with
    | some (.next frame) => Meets opArray plan rest (i + 1) frame
    | some (.stop (.callYield _ _ resultSlot) frame) =>
      Meets opArray plan rest (i + 1) (machine.calleeReturns resultSlot frame)
    | _ => True

/-- A run has failed at a step: the frame is the one behind the instructions in front of it, run one
by one. In front of all calls none is performed and none left pending, and behind instructions that
can be run again the block starts again as if the plan had not been run. -/
structure FailedAt (opArray : OpArray) (block : BlockInfo) (plan : MacroPlan) (initial : Frame)
    (i : Nat) (frame : Frame) : Prop where
  failed : ∃ step, plan.steps[i]? = some step ∧
    machine.executeStep plan i step frame = some (.stop .guardFail frame)
  behind : machine.runFront opArray (plan.front opArray i) block.startIp initial = some frame
  noCalls : NoCalls (plan.front opArray i) →
    frame.performed = initial.performed ∧ frame.pending.length = initial.pending.length
  restarts : Restartable (plan.front opArray i) →
    machine.runBlock opArray (opArray.block block) block.startIp frame =
      machine.runBlock opArray (opArray.block block) block.startIp initial

/-- The end of a run against the instructions of the block one by one. -/
def Equivalent (opArray : OpArray) (block : BlockInfo) (plan : MacroPlan) (initial : Frame)
    (result : MacroResult) (frame : Frame) : Prop :=
  let run := machine.runBlock opArray (opArray.block block) block.startIp initial
  match result with
  | .returned value => run = (.returned value, frame)
  | .jump targetIp => run = (.jump targetIp, frame)
  | .fallThrough => run = (.fallThrough, frame)
  | .guardFail => ∃ i, machine.FailedAt opArray block plan initial i frame
  | .callYield _ _ _ => False

/-- The steps from one on go on to a later one, from a frame to the one in front of it. -/
inductive GoesOn (plan : MacroPlan) : Nat → Frame → Nat → Frame → Prop
  | refl : GoesOn plan i frame i frame
  | step (hi : plan.steps[i]? = some step)
      (hstep : machine.executeStep plan i step frame = some (.next next))
      (h : GoesOn plan (i + 1) next j last) : GoesOn plan i frame j last

/-- A yield is that of the call step which the run has come to, and it resumes behind it: the step
in front of which the plan is that of the first `k` instructions of the block is the step of the
next one, a call into the same slot. -/
def ResumesBehindCall (opArray : OpArray) (block : BlockInfo) (plan : MacroPlan) : Prop :=
  ∀ start frame resumeStep resumeIp resultSlot frame',
    machine.executeMacro plan start frame =
        some (.callYield resumeStep resumeIp resultSlot, frame') →
      ∃ j before, machine.GoesOn plan start frame j before ∧
        plan.steps[j]? = some (.doFcallFastScalar resultSlot) ∧
        machine.executeStep plan j (.doFcallFastScalar resultSlot) before =
          some (.stop (.callYield resumeStep resumeIp resultSlot) frame') ∧
        ∃ k instr, planFrom opArray ((opArray.block block).take k) block.startIp 0 =
            some (plan.steps.take j) ∧
          (opArray.block block)[k]? = some instr ∧ instr.opcode = .doFcall ∧
          instr.result = resultSlot ∧ resumeStep = (j + 1) % 65536 ∧
          resumeIp = block.startIp + k + 1

/-- What a step under its condition does, against the instruction it stands for. -/
def Simulated (opArray : OpArray) (instr : Instruction) (ip i : Nat) (frame : Frame) :
    StepOutcome → Prop
  | .next frame' =>
    (∃ l v, machine.direct opArray instr frame = some (l, v) ∧ frame' = frame.write l v) ∨
      instr.opcode = .initFcall ∧ machine.interpret opArray ip instr frame = .next frame'
  | .stop (.returned value) frame' =>
    machine.interpret opArray ip instr frame = .exit (.returned value) frame'
  | .stop (.jump targetIp) frame' =>
    machine.interpret opArray ip instr frame = .exit (.jump targetIp) frame'
  | .stop .fallThrough frame' =>
    instr.opcode = .jmpZ ∧ machine.interpret opArray ip instr frame = .next frame'
  | .stop .guardFail frame' => frame' = frame
  | .stop (.callYield resumeStep _ resultSlot) frame' =>
    instr.opcode = .doFcall ∧ resumeStep = i + 1 ∧
      machine.interpret opArray ip instr frame =
        .next (machine.calleeReturns resultSlot frame')

end Machine

end Rphp.Vm
