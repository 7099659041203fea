import Codegen.Selection.Merge

/-!
# The build of a function

The instructions are built in order. Before each one the registers of values that are not needed
any more, or that have moved elsewhere, are freed.

* `Generating.buildInstruction`: the machine operations of one instruction;
* `Generating.build`: all instructions of a function, once.
-/

namespace Codegen.Generating

/-! ## Instructions -/

/-- Puts the incoming parameters into their registers. -/
def buildParameters (parameters : List ValueId) : Generating Unit := do
  match (← get).target.argumentRegisters (← parameters.mapM formatOf) with
  | .error limit => refuse (.lateParameters limit)
  | .ok registers => (parameters.zip registers).forM fun (v, r) => place v r

/-- A comparison; it compares decimals if one of the values is a decimal. -/
def buildCompare (left right : ValueId) : Generating Unit := do
  let x64 := (← get).isX64
  let decimalRight := (← formatOf right).isDecimal
  if (← formatOf left).isDecimal || decimalRight then
    let l ← loadAs left .decimal
    let r ←
      if x64 && decimalRight then operand right .any
      else Operand.register <$> loadAs right .decimal
    emitTwo .compare l r
  else
    let l ← load left
    emitTwo .compare l (← operand right (if x64 then .any else .registerOrImmediate))

/-- A store. An integer becomes a decimal where one is expected. -/
def buildMove (destination source : ValueId) : Generating Unit := do
  let h ← handleOf destination
  if !h.isLocation then refuse (.notStorable h)
  let redirected ←
    match h.register? with
    | some r => if ← isUsed r then pure false else redirect source r destination
    | none => pure false
  if !redirected then
    let f ← formatOf destination
    if f.isDecimal && !(← formatOf source).isDecimal then
      let converted ← loadAs source f
      emit .move [.memory (← memoryOperand h), .register converted]
    else moveInto h source

/-- A copy in a new register. -/
def buildDuplicate (v result : ValueId) : Generating Unit := do
  let f ← formatOf result
  let source ← sourceAs v f
  transferToRegister (← allocateResult result) source f

/-- A read; it takes back the register of a value that lost it to a restored snapshot. -/
def buildRead (v : ValueId) : Generating Unit := do
  match ← handleOf v with
  | .register r => if !(← isUsed r) then changeRegisters (·.assign r v)
  | _ => pure ()

/-- A jump, unconditional without a test. -/
def buildJump (l : Label) (test : Option JumpTest) : Generating Unit := do
  let opcode := match test with
    | some t => Opcode.conditionalJump t.comparison t.signed
    | none => .jump
  emit opcode [.label ((← get).labelName l)]

/-- The machine operations of an instruction at a position. -/
def buildInstruction (position : Nat) (result : ValueId) : InstructionKind → Generating Unit
  | .bindParameters parameters => buildParameters parameters
  | .label l => do emit .label [.label ((← get).labelName l)]
  | .jump l test => buildJump l test
  | .compare left right => buildCompare left right
  | .move destination source => buildMove destination source
  | .duplicate v => buildDuplicate v result
  | .addition first second => buildAdditive .add first second result
  | .subtraction first second => buildAdditive .subtract first second result
  | .multiplication first second => buildMultiplication first second result
  | .getMemoryAddress .. | .getObjectPointer .. | .allocateStack .. | .branch _ => pure ()
  | .call symbol arguments => buildCall symbol arguments result
  | .ret value? => buildReturn value?
  | .evacuate => buildEvacuate
  | .saveState => saveSnapshot position
  | .restoreState save => restoreSnapshot save
  | .enterScope actives => recordEntry position actives
  | .mergeScope enter pairs => reconcile enter pairs true
  | .symmetryStart _ actives => do
    recordEntry position actives
    saveSnapshot position
  | .symmetryEnd start pairs => do
    reconcile start pairs false
    restoreSnapshot start
  | .getVariable _ v => buildRead v
  | .cacheVariables vars preserved => buildCache vars preserved

/-! ## Functions -/

/-- Frees the registers whose value is not needed any more or has moved elsewhere. -/
def releaseExpired : Generating Unit := do
  (← get).registers.occupants.forM fun (r, v) => do
    let moved := (← handleOf v).register? != some r
    if moved || !(← isValid v (← get).position) then changeRegisters (·.release r)

/-- Builds the instruction at a position. -/
def buildAt (position : Nat) (i : Instruction) : Generating Unit := do
  modify fun r => { r with position }
  releaseExpired
  buildInstruction position i.result i.kind
  modify fun r =>
    { r with
      registers := r.registers.unlockAll
      instructions := r.instructions.modify position ({ · with operations := r.operations })
      operations := [] }

/-- Builds all instructions in order. A function is built once. -/
def build : Generating Unit := do
  let r ← get
  if r.built then refuse .alreadyBuilt
  set { r with built := true }
  r.instructions.toList.zipIdx.forM fun (i, position) => buildAt position i

end Codegen.Generating
