import Rphp.Vm.Blocks

namespace Rphp.Vm.CallbackPipeline
set_option autoImplicit true

/-! Array pipelines of three callbacks, recognized in the bytecode. -/

/-- The opcodes that the detectors look at. -/
inductive PipelineOpCode
  | initFcall
  | sendVal
  | sendVarEx
  | doFcall
  | assignCv
  | other (code : Nat)
  deriving DecidableEq, Repr

structure PipelineInstruction where
  opcode : PipelineOpCode
  op1Type : OpType
  op2Type : OpType
  resultType : OpType
  op1 : Nat
  op2 : Nat
  result : Nat
  pad : Nat
  extendedValue : Nat
  deriving DecidableEq, Repr

/-- A literal of the bytecode; a string that is not text counts as another value. -/
inductive Literal
  | text (characters : List Char)
  | long (n : I64)
  | other
  deriving DecidableEq

structure OpArray where
  name : List Char
  instructions : List PipelineInstruction
  literals : List Literal

structure CallbackArrayPipelineSpan where
  mapCallback : PipelineInstruction
  mapDoFcallIp : Nat
  source : PipelineInstruction
  filterCallback : PipelineInstruction
  filterDoFcallIp : Nat
  reduceCallback : PipelineInstruction
  initial : PipelineInstruction
  doFcallIp : Nat
  deriving DecidableEq, Repr

inductive CallbackArrayPipelineOrder
  | mapFilter
  | filterMap
  deriving DecidableEq, Repr

structure CallbackArrayPipelineProgram where
  span : CallbackArrayPipelineSpan
  order : CallbackArrayPipelineOrder
  discardedCvs : Option (Nat × Nat)
  deriving DecidableEq, Repr

section Operands

def asStr : Literal → Option (List Char)
  | .text characters => some characters
  | _ => none

def isNamedCall (opArray : OpArray) (instruction : PipelineInstruction) (name : String)
    (arity : Nat) : Bool :=
  instruction.opcode = .initFcall && instruction.op1 = arity && instruction.op2Type = .const &&
    instruction.extendedValue = 0 &&
    ((opArray.literals[instruction.op2]?).bind asStr).any
      (fun candidate => candidate.map Char.toLower = name.toList.map Char.toLower)

def sendFlagIndirectTemporary : Nat := 5

def isPositionalSend (instruction : PipelineInstruction) (position : Nat) : Bool :=
  (instruction.opcode = .sendVal ||
    (instruction.opcode = .sendVarEx && instruction.pad.testBit sendFlagIndirectTemporary &&
      (instruction.op1Type = .tmp || instruction.op1Type = .var))) &&
    instruction.op2 = position

def isStringLiteralSend (opArray : OpArray) (instruction : PipelineInstruction) (position : Nat) :
    Bool :=
  isPositionalSend instruction position && instruction.op1Type = .const &&
    ((opArray.literals[instruction.op1]?).bind asStr).isSome

/-- The operand that a pipeline reads its array from. -/
def isSourceOperand (instruction : PipelineInstruction) : Bool :=
  instruction.op1Type = .cv || instruction.op1Type = .const

/-- A call whose result is kept in a temporary. -/
def isTemporaryCall (instruction : PipelineInstruction) : Bool :=
  instruction.opcode = .doFcall &&
    (instruction.resultType = .tmp || instruction.resultType = .var)

/-- A send of the result of a call. -/
def isResultSend (send call : PipelineInstruction) (position : Nat) : Bool :=
  isPositionalSend send position && send.op1Type = call.resultType && send.op1 = call.result

def isLongLiteralSend (opArray : OpArray) (instruction : PipelineInstruction) (position : Nat) :
    Bool :=
  isPositionalSend instruction position && instruction.op1Type = .const &&
    match opArray.literals[instruction.op1]? with
    | some (.long _) => true
    | _ => false

/-- The last call of a pipeline, whose result may be dropped. -/
def isFinalCall (instruction : PipelineInstruction) : Bool :=
  instruction.opcode = .doFcall &&
    (instruction.resultType = .tmp || instruction.resultType = .var ||
      instruction.resultType = .unused)

def assignmentDestination (assignment source : PipelineInstruction) : Option Nat :=
  if assignment.opcode = .assignCv ∧ assignment.op1Type = .cv ∧
      assignment.op2Type = source.resultType ∧ assignment.op2 = source.result ∧
      assignment.resultType = .unused then
    some assignment.op1
  else none

def instructionMentionsOperand (instruction : PipelineInstruction) (opType : OpType) (slot : Nat) :
    Bool :=
  (instruction.op1Type = opType && instruction.op1 = slot) ||
    (instruction.op2Type = opType && instruction.op2 = slot) ||
    (instruction.resultType = opType && instruction.result = slot)

def hasOnlyCvMentions (opArray : OpArray) (cv : Nat) (admittedIps : List Nat) : Bool :=
  opArray.instructions.zipIdx.all fun (instruction, ip) =>
    admittedIps.contains ip || !instructionMentionsOperand instruction .cv cv

end Operands

section MapFilter

def detectCallbackArrayPipelineSpan (opArray : OpArray) (reduceIp : Nat) :
    Option CallbackArrayPipelineSpan := do
  let reduce ← opArray.instructions[reduceIp]?
  let filter ← opArray.instructions[reduceIp + 1]?
  let map ← opArray.instructions[reduceIp + 2]?
  if !isNamedCall opArray reduce "array_reduce" 3 || !isNamedCall opArray filter "array_filter" 2 ||
      !isNamedCall opArray map "array_map" 2 then
    none
  else
    let mapCallback ← opArray.instructions[reduceIp + 3]?
    let source ← opArray.instructions[reduceIp + 4]?
    let mapDo ← opArray.instructions[reduceIp + 5]?
    let mapSend ← opArray.instructions[reduceIp + 6]?
    let filterCallback ← opArray.instructions[reduceIp + 7]?
    let filterDo ← opArray.instructions[reduceIp + 8]?
    let filterSend ← opArray.instructions[reduceIp + 9]?
    let reduceCallback ← opArray.instructions[reduceIp + 10]?
    let initial ← opArray.instructions[reduceIp + 11]?
    let reduceDo ← opArray.instructions[reduceIp + 12]?
    if !isStringLiteralSend opArray mapCallback 0 || !isPositionalSend source 1 ||
        !isSourceOperand source || !isTemporaryCall mapDo || !isResultSend mapSend mapDo 0 ||
        !isStringLiteralSend opArray filterCallback 1 || !isTemporaryCall filterDo ||
        !isResultSend filterSend filterDo 0 || !isStringLiteralSend opArray reduceCallback 1 ||
        !isLongLiteralSend opArray initial 2 || !isFinalCall reduceDo then
      none
    else
      some {
        mapCallback := mapCallback
        mapDoFcallIp := reduceIp + 5
        source := source
        filterCallback := filterCallback
        filterDoFcallIp := reduceIp + 8
        reduceCallback := reduceCallback
        initial := initial
        doFcallIp := reduceIp + 12 }

structure StagedCallbackArrayPipelineSpan where
  pipeline : CallbackArrayPipelineSpan
  mappedCv : Nat
  filteredCv : Nat
  deriving DecidableEq, Repr

def detectStagedCallbackArrayPipelineWithReduceOffset (opArray : OpArray) (mapIp : Nat)
    (reduceOffset : Nat) : Option StagedCallbackArrayPipelineSpan :=
  if opArray.name = "<main>".toList then none
  else do
    let map ← opArray.instructions[mapIp]?
    let mapCallback ← opArray.instructions[mapIp + 1]?
    let source ← opArray.instructions[mapIp + 2]?
    let mapDo ← opArray.instructions[mapIp + 3]?
    let mapAssign ← opArray.instructions[mapIp + 4]?
    let filter ← opArray.instructions[mapIp + 5]?
    let filterSource ← opArray.instructions[mapIp + 6]?
    let filterCallback ← opArray.instructions[mapIp + 7]?
    let filterDo ← opArray.instructions[mapIp + 8]?
    let filterAssign ← opArray.instructions[mapIp + 9]?
    let reduce ← opArray.instructions[mapIp + reduceOffset]?
    let reduceSource ← opArray.instructions[mapIp + reduceOffset + 1]?
    let reduceCallback ← opArray.instructions[mapIp + reduceOffset + 2]?
    let initial ← opArray.instructions[mapIp + reduceOffset + 3]?
    let reduceDo ← opArray.instructions[mapIp + reduceOffset + 4]?
    if !isNamedCall opArray map "array_map" 2 || !isStringLiteralSend opArray mapCallback 0 ||
        !isPositionalSend source 1 || !isSourceOperand source || !isTemporaryCall mapDo ||
        !isNamedCall opArray filter "array_filter" 2 || !isPositionalSend filterSource 0 ||
        filterSource.op1Type ≠ .cv || !isStringLiteralSend opArray filterCallback 1 ||
        !isTemporaryCall filterDo || !isNamedCall opArray reduce "array_reduce" 3 ||
        !isPositionalSend reduceSource 0 || reduceSource.op1Type ≠ .cv ||
        !isStringLiteralSend opArray reduceCallback 1 || !isLongLiteralSend opArray initial 2 ||
        !isFinalCall reduceDo then
      none
    else
      let mappedCv ← assignmentDestination mapAssign mapDo
      let filteredCv ← assignmentDestination filterAssign filterDo
      if mappedCv = filteredCv || filterSource.op1 ≠ mappedCv || reduceSource.op1 ≠ filteredCv ||
          !hasOnlyCvMentions opArray mappedCv [mapIp + 4, mapIp + 6] ||
          !hasOnlyCvMentions opArray filteredCv [mapIp + 9, mapIp + reduceOffset + 1] then
        none
      else
        some {
          pipeline := {
            mapCallback := mapCallback
            mapDoFcallIp := mapIp + 3
            source := source
            filterCallback := filterCallback
            filterDoFcallIp := mapIp + 8
            reduceCallback := reduceCallback
            initial := initial
            doFcallIp := mapIp + reduceOffset + 4 }
          mappedCv := mappedCv
          filteredCv := filteredCv }

def detectStagedCallbackArrayPipelineSpan (opArray : OpArray) (mapIp : Nat) :
    Option StagedCallbackArrayPipelineSpan :=
  detectStagedCallbackArrayPipelineWithReduceOffset opArray mapIp 10

end MapFilter

section FilterMap

structure FilterMapCallbackArrayPipelineSpan where
  pipeline : CallbackArrayPipelineSpan
  discardedCvs : Option (Nat × Nat)
  deriving DecidableEq, Repr

def detectNestedFilterMapCallbackArrayPipelineSpan (opArray : OpArray) (reduceIp : Nat) :
    Option FilterMapCallbackArrayPipelineSpan := do
  let reduce ← opArray.instructions[reduceIp]?
  let map ← opArray.instructions[reduceIp + 1]?
  let mapCallback ← opArray.instructions[reduceIp + 2]?
  let filter ← opArray.instructions[reduceIp + 3]?
  let source ← opArray.instructions[reduceIp + 4]?
  let filterCallback ← opArray.instructions[reduceIp + 5]?
  let filterDo ← opArray.instructions[reduceIp + 6]?
  let filterSend ← opArray.instructions[reduceIp + 7]?
  let mapDo ← opArray.instructions[reduceIp + 8]?
  let mapSend ← opArray.instructions[reduceIp + 9]?
  let reduceCallback ← opArray.instructions[reduceIp + 10]?
  let initial ← opArray.instructions[reduceIp + 11]?
  let reduceDo ← opArray.instructions[reduceIp + 12]?
  if !isNamedCall opArray reduce "array_reduce" 3 || !isNamedCall opArray map "array_map" 2 ||
      !isStringLiteralSend opArray mapCallback 0 || !isNamedCall opArray filter "array_filter" 2 ||
      !isPositionalSend source 0 || !isSourceOperand source ||
      !isStringLiteralSend opArray filterCallback 1 || !isTemporaryCall filterDo ||
      !isResultSend filterSend filterDo 1 || !isTemporaryCall mapDo ||
      !isResultSend mapSend mapDo 0 || !isStringLiteralSend opArray reduceCallback 1 ||
      !isLongLiteralSend opArray initial 2 || !isFinalCall reduceDo then
    none
  else
    some {
      pipeline := {
        mapCallback := mapCallback
        mapDoFcallIp := reduceIp + 8
        source := source
        filterCallback := filterCallback
        filterDoFcallIp := reduceIp + 6
        reduceCallback := reduceCallback
        initial := initial
        doFcallIp := reduceIp + 12 }
      discardedCvs := none }

def detectStagedFilterMapCallbackArrayPipelineWithReduceOffset (opArray : OpArray) (filterIp : Nat)
    (reduceOffset : Nat) : Option FilterMapCallbackArrayPipelineSpan :=
  if opArray.name = "<main>".toList then none
  else do
    let filter ← opArray.instructions[filterIp]?
    let source ← opArray.instructions[filterIp + 1]?
    let filterCallback ← opArray.instructions[filterIp + 2]?
    let filterDo ← opArray.instructions[filterIp + 3]?
    let filterAssign ← opArray.instructions[filterIp + 4]?
    let map ← opArray.instructions[filterIp + 5]?
    let mapCallback ← opArray.instructions[filterIp + 6]?
    let mapSource ← opArray.instructions[filterIp + 7]?
    let mapDo ← opArray.instructions[filterIp + 8]?
    let mapAssign ← opArray.instructions[filterIp + 9]?
    let reduce ← opArray.instructions[filterIp + reduceOffset]?
    let reduceSource ← opArray.instructions[filterIp + reduceOffset + 1]?
    let reduceCallback ← opArray.instructions[filterIp + reduceOffset + 2]?
    let initial ← opArray.instructions[filterIp + reduceOffset + 3]?
    let reduceDo ← opArray.instructions[filterIp + reduceOffset + 4]?
    if !isNamedCall opArray filter "array_filter" 2 || !isPositionalSend source 0 ||
        !isSourceOperand source || !isStringLiteralSend opArray filterCallback 1 ||
        !isTemporaryCall filterDo || !isNamedCall opArray map "array_map" 2 ||
        !isStringLiteralSend opArray mapCallback 0 || !isPositionalSend mapSource 1 ||
        mapSource.op1Type ≠ .cv || !isTemporaryCall mapDo ||
        !isNamedCall opArray reduce "array_reduce" 3 || !isPositionalSend reduceSource 0 ||
        reduceSource.op1Type ≠ .cv || !isStringLiteralSend opArray reduceCallback 1 ||
        !isLongLiteralSend opArray initial 2 || !isFinalCall reduceDo then
      none
    else
      let filteredCv ← assignmentDestination filterAssign filterDo
      let mappedCv ← assignmentDestination mapAssign mapDo
      if filteredCv = mappedCv || mapSource.op1 ≠ filteredCv || reduceSource.op1 ≠ mappedCv ||
          !hasOnlyCvMentions opArray filteredCv [filterIp + 4, filterIp + 7] ||
          !hasOnlyCvMentions opArray mappedCv [filterIp + 9, filterIp + reduceOffset + 1] then
        none
      else
        some {
          pipeline := {
            mapCallback := mapCallback
            mapDoFcallIp := filterIp + 8
            source := source
            filterCallback := filterCallback
            filterDoFcallIp := filterIp + 3
            reduceCallback := reduceCallback
            initial := initial
            doFcallIp := filterIp + reduceOffset + 4 }
          discardedCvs := some (filteredCv, mappedCv) }

def detectStagedFilterMapCallbackArrayPipelineSpan (opArray : OpArray) (filterIp : Nat) :
    Option FilterMapCallbackArrayPipelineSpan :=
  detectStagedFilterMapCallbackArrayPipelineWithReduceOffset opArray filterIp 10

end FilterMap

section Programs

/-- The program that a full structural match of one layout gives. -/
def detectProgram (opArray : OpArray) (entryIp : Nat) :
    CallbackArrayPipelineOrder → Bool → Option CallbackArrayPipelineProgram
  | .mapFilter, false =>
    (detectCallbackArrayPipelineSpan opArray entryIp).map fun span =>
      ⟨span, .mapFilter, none⟩
  | .mapFilter, true =>
    (detectStagedCallbackArrayPipelineSpan opArray entryIp).map fun staged =>
      ⟨staged.pipeline, .mapFilter, some (staged.mappedCv, staged.filteredCv)⟩
  | .filterMap, false =>
    (detectNestedFilterMapCallbackArrayPipelineSpan opArray entryIp).map fun detected =>
      ⟨detected.pipeline, .filterMap, detected.discardedCvs⟩
  | .filterMap, true =>
    (detectStagedFilterMapCallbackArrayPipelineSpan opArray entryIp).map fun detected =>
      ⟨detected.pipeline, .filterMap, detected.discardedCvs⟩

/-- The program that the offsets of one layout give, without a look at the instructions. -/
def callbackArrayPipelineProgramFromMetadata (opArray : OpArray) (entryIp : Nat)
    (order : CallbackArrayPipelineOrder) (staged : Bool) : Option CallbackArrayPipelineProgram := do
  let instruction (offset : Nat) := opArray.instructions[entryIp + offset]?
  let span : CallbackArrayPipelineSpan ←
    match staged, order with
    | false, .mapFilter => do
      pure ⟨← instruction 3, entryIp + 5, ← instruction 4, ← instruction 7, entryIp + 8,
        ← instruction 10, ← instruction 11, entryIp + 12⟩
    | false, .filterMap => do
      pure ⟨← instruction 2, entryIp + 8, ← instruction 4, ← instruction 5, entryIp + 6,
        ← instruction 10, ← instruction 11, entryIp + 12⟩
    | true, .mapFilter => do
      pure ⟨← instruction 1, entryIp + 3, ← instruction 2, ← instruction 7, entryIp + 8,
        ← instruction 12, ← instruction 13, entryIp + 14⟩
    | true, .filterMap => do
      pure ⟨← instruction 6, entryIp + 8, ← instruction 1, ← instruction 2, entryIp + 3,
        ← instruction 12, ← instruction 13, entryIp + 14⟩
  let _ ← opArray.instructions[span.doFcallIp]?
  let discardedCvs : Option (Nat × Nat) ←
    if staged then do
      let first ← instruction 4
      let second ← instruction 9
      pure (some (first.op1, second.op1))
    else pure none
  pure ⟨span, order, discardedCvs⟩

end Programs

theorem option_bind_eq_some {x : Option α} {f : α → Option β} (h : (x >>= f) = some b) :
    ∃ a, x = some a ∧ f a = some b :=
  Option.bind_eq_some_iff.mp h

theorem assignmentDestination_eq (h : assignmentDestination assignment source = some cv) :
    cv = assignment.op1 := by
  unfold assignmentDestination at h
  split at h
  · exact (Option.some.inj h).symm
  · cases h

theorem metadata_of_mapFilter (h : detectCallbackArrayPipelineSpan opArray entryIp = some span) :
    callbackArrayPipelineProgramFromMetadata opArray entryIp .mapFilter false =
      some ⟨span, .mapFilter, none⟩ := by
  rw [detectCallbackArrayPipelineSpan] at h
  obtain ⟨reduce, hreduce, h⟩ := option_bind_eq_some h
  obtain ⟨filter, hfilter, h⟩ := option_bind_eq_some h
  obtain ⟨map, hmap, h⟩ := option_bind_eq_some h
  split at h
  · cases h
  · obtain ⟨mapCallback, h3, h⟩ := option_bind_eq_some h
    obtain ⟨source, h4, h⟩ := option_bind_eq_some h
    obtain ⟨mapDo, h5, h⟩ := option_bind_eq_some h
    obtain ⟨mapSend, h6, h⟩ := option_bind_eq_some h
    obtain ⟨filterCallback, h7, h⟩ := option_bind_eq_some h
    obtain ⟨filterDo, h8, h⟩ := option_bind_eq_some h
    obtain ⟨filterSend, h9, h⟩ := option_bind_eq_some h
    obtain ⟨reduceCallback, h10, h⟩ := option_bind_eq_some h
    obtain ⟨initial, h11, h⟩ := option_bind_eq_some h
    obtain ⟨reduceDo, h12, h⟩ := option_bind_eq_some h
    split at h
    · cases h
    · cases h
      simp [callbackArrayPipelineProgramFromMetadata, h3, h4, h7, h10, h11, h12]

theorem metadata_of_stagedMapFilter
    (h : detectStagedCallbackArrayPipelineSpan opArray entryIp = some staged) :
    callbackArrayPipelineProgramFromMetadata opArray entryIp .mapFilter true =
      some ⟨staged.pipeline, .mapFilter, some (staged.mappedCv, staged.filteredCv)⟩ := by
  rw [detectStagedCallbackArrayPipelineSpan, detectStagedCallbackArrayPipelineWithReduceOffset] at h
  split at h
  · cases h
  · obtain ⟨map, h0, h⟩ := option_bind_eq_some h
    obtain ⟨mapCallback, h1, h⟩ := option_bind_eq_some h
    obtain ⟨source, h2, h⟩ := option_bind_eq_some h
    obtain ⟨mapDo, h3, h⟩ := option_bind_eq_some h
    obtain ⟨mapAssign, h4, h⟩ := option_bind_eq_some h
    obtain ⟨filter, h5, h⟩ := option_bind_eq_some h
    obtain ⟨filterSource, h6, h⟩ := option_bind_eq_some h
    obtain ⟨filterCallback, h7, h⟩ := option_bind_eq_some h
    obtain ⟨filterDo, h8, h⟩ := option_bind_eq_some h
    obtain ⟨filterAssign, h9, h⟩ := option_bind_eq_some h
    obtain ⟨reduce, h10, h⟩ := option_bind_eq_some h
    obtain ⟨reduceSource, h11, h⟩ := option_bind_eq_some h
    obtain ⟨reduceCallback, h12, h⟩ := option_bind_eq_some h
    obtain ⟨initial, h13, h⟩ := option_bind_eq_some h
    obtain ⟨reduceDo, h14, h⟩ := option_bind_eq_some h
    split at h
    · cases h
    · obtain ⟨mappedCv, hmapped, h⟩ := option_bind_eq_some h
      obtain ⟨filteredCv, hfiltered, h⟩ := option_bind_eq_some h
      split at h
      · cases h
      · cases h
        have hfirst := assignmentDestination_eq hmapped
        have hsecond := assignmentDestination_eq hfiltered
        subst hfirst hsecond
        simp [callbackArrayPipelineProgramFromMetadata, h1, h2, h4, h7, h9, h12, h13, h14]

theorem metadata_of_filterMap
    (h : detectNestedFilterMapCallbackArrayPipelineSpan opArray entryIp = some detected) :
    callbackArrayPipelineProgramFromMetadata opArray entryIp .filterMap false =
      some ⟨detected.pipeline, .filterMap, detected.discardedCvs⟩ := by
  rw [detectNestedFilterMapCallbackArrayPipelineSpan] at h
  obtain ⟨reduce, h0, h⟩ := option_bind_eq_some h
  obtain ⟨map, h1, h⟩ := option_bind_eq_some h
  obtain ⟨mapCallback, h2, h⟩ := option_bind_eq_some h
  obtain ⟨filter, h3, h⟩ := option_bind_eq_some h
  obtain ⟨source, h4, h⟩ := option_bind_eq_some h
  obtain ⟨filterCallback, h5, h⟩ := option_bind_eq_some h
  obtain ⟨filterDo, h6, h⟩ := option_bind_eq_some h
  obtain ⟨filterSend, h7, h⟩ := option_bind_eq_some h
  obtain ⟨mapDo, h8, h⟩ := option_bind_eq_some h
  obtain ⟨mapSend, h9, h⟩ := option_bind_eq_some h
  obtain ⟨reduceCallback, h10, h⟩ := option_bind_eq_some h
  obtain ⟨initial, h11, h⟩ := option_bind_eq_some h
  obtain ⟨reduceDo, h12, h⟩ := option_bind_eq_some h
  split at h
  · cases h
  · cases h
    simp [callbackArrayPipelineProgramFromMetadata, h2, h4, h5, h10, h11, h12]

theorem metadata_of_stagedFilterMap
    (h : detectStagedFilterMapCallbackArrayPipelineSpan opArray entryIp = some detected) :
    callbackArrayPipelineProgramFromMetadata opArray entryIp .filterMap true =
      some ⟨detected.pipeline, .filterMap, detected.discardedCvs⟩ := by
  rw [detectStagedFilterMapCallbackArrayPipelineSpan,
    detectStagedFilterMapCallbackArrayPipelineWithReduceOffset] at h
  split at h
  · cases h
  · obtain ⟨filter, h0, h⟩ := option_bind_eq_some h
    obtain ⟨source, h1, h⟩ := option_bind_eq_some h
    obtain ⟨filterCallback, h2, h⟩ := option_bind_eq_some h
    obtain ⟨filterDo, h3, h⟩ := option_bind_eq_some h
    obtain ⟨filterAssign, h4, h⟩ := option_bind_eq_some h
    obtain ⟨map, h5, h⟩ := option_bind_eq_some h
    obtain ⟨mapCallback, h6, h⟩ := option_bind_eq_some h
    obtain ⟨mapSource, h7, h⟩ := option_bind_eq_some h
    obtain ⟨mapDo, h8, h⟩ := option_bind_eq_some h
    obtain ⟨mapAssign, h9, h⟩ := option_bind_eq_some h
    obtain ⟨reduce, h10, h⟩ := option_bind_eq_some h
    obtain ⟨reduceSource, h11, h⟩ := option_bind_eq_some h
    obtain ⟨reduceCallback, h12, h⟩ := option_bind_eq_some h
    obtain ⟨initial, h13, h⟩ := option_bind_eq_some h
    obtain ⟨reduceDo, h14, h⟩ := option_bind_eq_some h
    split at h
    · cases h
    · obtain ⟨filteredCv, hfiltered, h⟩ := option_bind_eq_some h
      obtain ⟨mappedCv, hmapped, h⟩ := option_bind_eq_some h
      split at h
      · cases h
      · cases h
        have hfirst := assignmentDestination_eq hfiltered
        have hsecond := assignmentDestination_eq hmapped
        subst hfirst hsecond
        simp [callbackArrayPipelineProgramFromMetadata, h1, h2, h4, h6, h9, h12, h13, h14]

/-- The offsets of a layout name what a full match of it finds. -/
theorem metadata_of_detected (order : CallbackArrayPipelineOrder) (staged : Bool)
    (h : detectProgram opArray entryIp order staged = some program) :
    callbackArrayPipelineProgramFromMetadata opArray entryIp order staged = some program := by
  cases order with
  | mapFilter =>
    cases staged with
    | false =>
      obtain ⟨span, hspan, rfl⟩ := Option.map_eq_some_iff.mp h
      exact metadata_of_mapFilter hspan
    | true =>
      obtain ⟨detected, hdetected, rfl⟩ := Option.map_eq_some_iff.mp h
      exact metadata_of_stagedMapFilter hdetected
  | filterMap =>
    cases staged with
    | false =>
      obtain ⟨detected, hdetected, rfl⟩ := Option.map_eq_some_iff.mp h
      exact metadata_of_filterMap hdetected
    | true =>
      obtain ⟨detected, hdetected, rfl⟩ := Option.map_eq_some_iff.mp h
      exact metadata_of_stagedFilterMap hdetected

end Rphp.Vm.CallbackPipeline
