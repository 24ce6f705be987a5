import Mathlib.Data.BitVec
import Rphp.Vm.Blocks

namespace Rphp.Vm
set_option autoImplicit true

inductive ValueType
  | undef
  | null
  | false
  | true
  | long
  | double
  | string
  | array
  | object
  | resource
  | closure
  | reference
  deriving DecidableEq, Repr

/-- The type of a slot and the 64 bits behind it. -/
structure Value where
  type : ValueType
  raw : I64
  deriving DecidableEq

namespace Value

def undef : Value := ⟨.undef, .zero⟩

def null : Value := ⟨.null, .zero⟩

def ofLong (n : I64) : Value := ⟨.long, n⟩

def ofBool (b : Bool) : Value := ⟨if b then .true else .false, .zero⟩

def asLong (value : Value) : Option I64 := if value.type = .long then some value.raw else none

/-- Nothing comes out for the types whose truth the bits do not show. -/
def truthy? (value : Value) : Option Bool :=
  match value.type with
  | .undef | .null | .false => some false
  | .true => some true
  | .long => some (value.raw.val ≠ 0)
  | .object | .resource | .closure => some true
  | _ => none

end Value

inductive FunctionType
  | user
  | internal
  deriving DecidableEq, Repr

inductive CallStrategy
  | fastScalar
  | fast
  | full
  | fastTypedScalar
  deriving DecidableEq, Repr

def CallStrategy.isCompactUserCall : CallStrategy → Bool
  | .full => false
  | _ => true

inductive ReturnStrategy
  | fast
  | full
  deriving DecidableEq, Repr

inductive ParamTypeHint
  | none
  | int
  | float
  | string
  | bool
  | mixed
  | other (code : Nat)
  deriving DecidableEq, Repr

structure FunctionCommon where
  identity : Nat
  fnType : FunctionType
  callDiagnosticAttribute : Bool
  call : CallStrategy
  isVariadic : Bool
  refArgs : Nat
  ret : ReturnStrategy
  paramTypeHints : List ParamTypeHint
  numArgs : Nat
  requiredNumArgs : Nat
  deriving DecidableEq, Repr

def FunctionCommon.canPromoteToHot (common : FunctionCommon) : Bool :=
  common.fnType = .user && !common.callDiagnosticAttribute && common.call.isCompactUserCall &&
    !common.isVariadic && common.refArgs = 0 && common.ret = .fast &&
    common.paramTypeHints.all fun
      | .other _ => false
      | _ => true

structure OpArray where
  hasTryEntries : Bool
  isGenerator : Bool
  hasGlobalVars : Bool
  hasStaticVars : Bool
  instructions : List Instruction
  literals : List Value
  cache : List (Option FunctionCommon)

def OpArray.blockInfo (opArray : OpArray) : List BlockInfo := computeBlocks opArray.instructions

/-- The instructions of a block. -/
def OpArray.block (opArray : OpArray) (block : BlockInfo) : List Instruction :=
  (opArray.instructions.drop block.startIp).take (block.endIp + 1 - block.startIp)

inductive MacroStep
  | guardLong (slot : Nat)
  | cmpLeLongConst (cvSlot : Nat) (constVal : I64) (resultSlot : Nat)
  | cmpLtLongConst (cvSlot : Nat) (constVal : I64) (resultSlot : Nat)
  | jmpZBool (condSlot targetIp : Nat)
  | subLongConst (cvSlot : Nat) (constVal : I64) (resultSlot : Nat)
  | addLongLong (aSlot bSlot resultSlot : Nat)
  | returnSlot (slot : Nat) (slotType : OpType)
  | initFcallCached (func : FunctionCommon) (numArgs : Nat)
  | sendValSlot (srcSlot argIdx : Nat)
  | doFcallFastScalar (resultSlot : Nat)
  deriving DecidableEq

def MacroStep.isGuard : MacroStep → Bool
  | .guardLong _ => true
  | _ => false

structure MacroPlan where
  steps : List MacroStep
  startIp : Nat
  endIp : Nat

def isPlannableOpcode : OpCode → Bool
  | .isSmallerOrEqualCvConst | .isSmallerCvConst | .jmpZ | .subCvConst | .addTmpTmp | .initFcall
  | .sendVal | .doFcall | .ret => true
  | _ => false

/-- The guard in front of a step, and the mask of the guarded variables behind it. -/
def ensureGuardLong (guarded : BitVec 64) (slot : Nat) : List MacroStep × BitVec 64 :=
  if slot < 64 then
    let bit := 1#64 <<< slot
    if guarded &&& bit = 0 then ([.guardLong slot], guarded ||| bit) else ([], guarded)
  else ([], guarded)

def OpArray.longLiteral (opArray : OpArray) (index : Nat) : Option I64 :=
  opArray.literals[index]?.bind Value.asLong

/-- The steps of an instruction. -/
def planInstruction (opArray : OpArray) (ip : Nat) (guarded : BitVec 64) (instr : Instruction) :
    Option (List MacroStep × BitVec 64) :=
  match instr.opcode with
  | .isSmallerOrEqualCvConst => do
    let (guards, guarded) := ensureGuardLong guarded instr.op1
    let longVal ← opArray.longLiteral instr.op2
    return (guards ++ [.cmpLeLongConst instr.op1 longVal instr.result], guarded)
  | .isSmallerCvConst => do
    let (guards, guarded) := ensureGuardLong guarded instr.op1
    let longVal ← opArray.longLiteral instr.op2
    return (guards ++ [.cmpLtLongConst instr.op1 longVal instr.result], guarded)
  | .jmpZ => some ([.jmpZBool instr.op1 instr.op2], guarded)
  | .subCvConst => do
    let (guards, guarded) := ensureGuardLong guarded instr.op1
    let longVal ← opArray.longLiteral instr.op2
    return (guards ++ [.subLongConst instr.op1 longVal instr.result], guarded)
  | .addTmpTmp => some ([.addLongLong instr.op1 instr.op2 instr.result], guarded)
  | .initFcall => do
    let common ← opArray.cache[ip]?.join
    if !common.canPromoteToHot then none
    else if instr.op1 ≠ common.numArgs ∨ instr.op1 ≠ common.requiredNumArgs then none
    else return ([.initFcallCached common instr.op1], guarded)
  | .sendVal => some ([.sendValSlot instr.op1 instr.op2], guarded)
  | .doFcall => some ([.doFcallFastScalar instr.result], guarded)
  | .ret => some ([.returnSlot instr.op1 instr.op1Type], guarded)
  | _ => none

/-- The steps of the instructions from one on. -/
def planFrom (opArray : OpArray) : List Instruction → Nat → BitVec 64 → Option (List MacroStep)
  | [], _, _ => some []
  | instr :: rest, ip, guarded => do
    let (steps, guarded) ← planInstruction opArray ip guarded instr
    let tail ← planFrom opArray rest (ip + 1) guarded
    return steps ++ tail

def planHotBlock (opArray : OpArray) (blockIdx : Nat) : Option MacroPlan :=
  if opArray.hasTryEntries || opArray.isGenerator || opArray.hasGlobalVars ||
      opArray.hasStaticVars then none
  else do
    let block ← opArray.blockInfo[blockIdx]?
    let instrs := opArray.block block
    if instrs.any fun instr => !isPlannableOpcode instr.opcode then none
    else do
      let steps ← planFrom opArray instrs block.startIp 0
      if steps = [] then none else return ⟨steps, block.startIp, block.endIp⟩

/-- A call with the arguments sent so far. -/
structure Call where
  function : FunctionCommon
  arguments : Nat → Value

/-- The slots of the frame, its pending calls with the innermost one in front, and the calls
performed so far. -/
structure Frame where
  slots : Nat → Value
  pending : List Call
  performed : List Call

namespace Frame

def set (frame : Frame) (slot : Nat) (value : Value) : Frame :=
  { frame with slots := fun other => if other = slot then value else frame.slots other }

def push (frame : Frame) (function : FunctionCommon) : Frame :=
  { frame with pending := ⟨function, fun _ => .undef⟩ :: frame.pending }

end Frame

def Call.send (call : Call) (index : Nat) (value : Value) : Call :=
  { call with arguments := fun other => if other = index then value else call.arguments other }

inductive BlockExit
  | returned (value : Value)
  | jump (targetIp : Nat)
  | fallThrough
  | general (code : Nat)
  deriving DecidableEq

/-- How an instruction ends. -/
inductive Outcome
  | next (frame : Frame)
  | exit (result : BlockExit) (frame : Frame)

/-- What the block depends on besides its frame: the checks of argument and return types, what a
reference refers to, what a call returns, and the paths of the interpreter for all other operands
and calls (conversions, overflow, exceptions). -/
structure Machine where
  typesMatch : FunctionCommon → (Nat → Value) → Bool
  returnTypeMatches : Value → Bool
  rejectsByReference : FunctionCommon → Instruction → Bool
  referent : List Call → Value → Value
  answer : List Call → Value
  general : Instruction → Frame → Outcome

namespace Machine

variable (machine : Machine)

/-- A call takes the compact path: its function has the compact ABI and its arguments fit. -/
def compactCall (call : Call) : Bool :=
  call.function.fnType = .user && call.function.call.isCompactUserCall &&
    (call.function.call = .fastScalar || machine.typesMatch call.function call.arguments)

def dereferenced (frame : Frame) (value : Value) : Value :=
  if value.type = .reference then machine.referent frame.performed value else value

/-- The value of the first operand. -/
def operand (opArray : OpArray) (instr : Instruction) (frame : Frame) : Option Value :=
  match instr.op1Type with
  | .const => opArray.literals[instr.op1]?
  | .cv => some (machine.dereferenced frame (frame.slots instr.op1))
  | .tmp | .var => some (frame.slots instr.op1)
  | .unused => none

/-- An instruction on its own. -/
def interpret (opArray : OpArray) (ip : Nat) (instr : Instruction) (frame : Frame) : Outcome :=
  match instr.opcode with
  | .isSmallerOrEqualCvConst =>
    match (frame.slots instr.op1).asLong, opArray.longLiteral instr.op2 with
    | some left, some right => .next (frame.set instr.result (.ofBool (left.val ≤ right.val)))
    | _, _ => machine.general instr frame
  | .isSmallerCvConst =>
    match (frame.slots instr.op1).asLong, opArray.longLiteral instr.op2 with
    | some left, some right => .next (frame.set instr.result (.ofBool (left.val < right.val)))
    | _, _ => machine.general instr frame
  | .subCvConst =>
    match (frame.slots instr.op1).asLong, opArray.longLiteral instr.op2 with
    | some left, some right =>
      match left.checkedSub right with
      | some diff => .next (frame.set instr.result (.ofLong diff))
      | none => machine.general instr frame
    | _, _ => machine.general instr frame
  | .addTmpTmp =>
    match (frame.slots instr.op1).asLong, (frame.slots instr.op2).asLong with
    | some left, some right =>
      match left.checkedAdd right with
      | some sum => .next (frame.set instr.result (.ofLong sum))
      | none => machine.general instr frame
    | _, _ => machine.general instr frame
  | .jmpZ =>
    match (machine.operand opArray instr frame).bind Value.truthy? with
    | some true => .next frame
    | some false => .exit (.jump instr.op2) frame
    | none => machine.general instr frame
  | .initFcall =>
    match opArray.cache[ip]?.join with
    | some function => .next (frame.push function)
    | none => machine.general instr frame
  | .sendVal =>
    match frame.pending, machine.operand opArray instr frame with
    | call :: pending, some value =>
      if instr.sendFlagged && machine.rejectsByReference call.function instr then
        machine.general instr frame
      else
        let value := if value.type = .undef then .null else value
        .next { frame with pending := call.send instr.op2 value :: pending }
    | _, _ => machine.general instr frame
  | .doFcall =>
    match frame.pending with
    | [] => machine.general instr frame
    | call :: pending =>
      if machine.compactCall call then
        let frame := { frame with pending, performed := frame.performed ++ [call] }
        match instr.resultType with
        | .tmp | .var => .next (frame.set instr.result (machine.answer frame.performed))
        | .unused => .next frame
        | _ => machine.general instr frame
      else machine.general instr frame
  | .ret =>
    match machine.operand opArray instr frame with
    | some value =>
      if machine.returnTypeMatches value then .exit (.returned value) frame
      else machine.general instr frame
    | none => machine.general instr frame
  | _ => machine.general instr frame

/-- The instructions of a block one by one, from one on. -/
def runBlock (opArray : OpArray) : List Instruction → Nat → Frame → BlockExit × Frame
  | [], _, frame => (.fallThrough, frame)
  | instr :: rest, ip, frame =>
    match machine.interpret opArray ip instr frame with
    | .next frame => runBlock opArray rest (ip + 1) frame
    | .exit result frame => (result, frame)

end Machine

/-- A call yields with the step and the instruction to resume at and the slot for its result. -/
inductive MacroResult
  | returned (value : Value)
  | jump (targetIp : Nat)
  | callYield (resumeStep resumeIp resultSlot : Nat)
  | guardFail
  | fallThrough
  deriving DecidableEq

inductive StepOutcome
  | next (frame : Frame)
  | stop (result : MacroResult) (frame : Frame)

/-- Guards do not correspond to instructions. -/
def findInstructionIpForStep (plan : MacroPlan) (stepIdx : Nat) : Nat :=
  plan.startIp + (plan.steps.take stepIdx).countP fun step => !step.isGuard

namespace Machine

variable (machine : Machine)

/-- A step; nothing comes out where the pending call is missing. -/
def executeStep (plan : MacroPlan) (i : Nat) (step : MacroStep) (frame : Frame) :
    Option StepOutcome :=
  match step with
  | .guardLong slot =>
    if (frame.slots slot).type ≠ .long then some (.stop .guardFail frame) else some (.next frame)
  | .cmpLeLongConst cvSlot constVal resultSlot =>
    some (.next (frame.set resultSlot (.ofBool ((frame.slots cvSlot).raw.val ≤ constVal.val))))
  | .cmpLtLongConst cvSlot constVal resultSlot =>
    some (.next (frame.set resultSlot (.ofBool ((frame.slots cvSlot).raw.val < constVal.val))))
  | .jmpZBool condSlot targetIp =>
    let truthy :=
      match (frame.slots condSlot).type with
      | .true => some true
      | .false => some false
      | .long => some (decide ((frame.slots condSlot).raw.val ≠ 0))
      | _ => none
    match truthy with
    | none => some (.stop .guardFail frame)
    | some false => some (.stop (.jump targetIp) frame)
    | some true => some (.stop .fallThrough frame)
  | .subLongConst cvSlot constVal resultSlot =>
    match (frame.slots cvSlot).raw.checkedSub constVal with
    | some result => some (.next (frame.set resultSlot (.ofLong result)))
    | none => some (.stop .guardFail frame)
  | .addLongLong aSlot bSlot resultSlot =>
    match (frame.slots aSlot).raw.checkedAdd (frame.slots bSlot).raw with
    | some result => some (.next (frame.set resultSlot (.ofLong result)))
    | none => some (.stop .guardFail frame)
  | .returnSlot slot slotType =>
    let value :=
      if slotType = .cv then machine.dereferenced frame (frame.slots slot) else frame.slots slot
    if machine.returnTypeMatches value then some (.stop (.returned value) frame)
    else some (.stop .guardFail frame)
  | .initFcallCached function _ => some (.next (frame.push function))
  | .sendValSlot srcSlot argIdx =>
    match frame.pending with
    | [] => none
    | call :: pending =>
      some (.next { frame with pending := call.send argIdx (frame.slots srcSlot) :: pending })
  | .doFcallFastScalar resultSlot =>
    match frame.pending with
    | [] => none
    | call :: pending =>
      if machine.compactCall call then
        let frame := { frame with pending, performed := frame.performed ++ [call] }
        some (.stop (.callYield ((i + 1) % 65536) (findInstructionIpForStep plan i + 1) resultSlot)
          frame)
      else some (.stop .guardFail frame)

/-- The steps from an index on, of which the list is left. -/
def executeFrom (plan : MacroPlan) : List MacroStep → Nat → Frame → Option (MacroResult × Frame)
  | [], _, frame => some (.fallThrough, frame)
  | step :: rest, i, frame => do
    match ← machine.executeStep plan i step frame with
    | .next frame => executeFrom plan rest (i + 1) frame
    | .stop result frame => return (result, frame)

def executeMacro (plan : MacroPlan) (startStep : Nat) (frame : Frame) :
    Option (MacroResult × Frame) :=
  machine.executeFrom plan (plan.steps.drop startStep) startStep frame

/-- The callee returns its result into its slot of the caller. -/
def calleeReturns (resultSlot : Nat) (frame : Frame) : Frame :=
  frame.set resultSlot (machine.answer frame.performed)

/-- The plan from a step on, resumed behind every call at the recorded step. -/
def runMacro (plan : MacroPlan) : Nat → Nat → Frame → Option (MacroResult × Frame)
  | 0, _, _ => none
  | fuel + 1, startStep, frame => do
    match ← machine.executeMacro plan startStep frame with
    | (.callYield resumeStep _ resultSlot, frame) =>
      runMacro plan fuel resumeStep (machine.calleeReturns resultSlot frame)
    | result => return result

end Machine

end Rphp.Vm
