import Codegen.Selection.Arithmetic

/-!
# Selection of calls

The values that a call would overwrite are brought to safety by the instruction before it: to
registers that calls preserve while some are free, then to the stack. The call itself moves its
arguments into their registers and gives up all volatile registers.

* `Generating.buildEvacuate`, `buildCall`, `buildReturn`: the instructions;
* `Generating.relocate`: a value from one register to another.
-/

namespace Codegen.Generating

/-- Moves a value from its register to another one. -/
def relocate (v : ValueId) (old new : Register) : Generating Unit := do
  emit .move [.register new, .register old]
  changeRegisters (·.release old)
  place v new

/-- Brings a value to safety from a register that the next call overwrites. -/
def evacuateFrom (r : Register) (v : ValueId) : Generating Unit := do
  let outlives ← isValid v ((← get).position + 2)
  if (← isVolatile r) && (← handleOf v).register? == some r && outlives then
    match ← freePreserved? (← formatOf v).bank with
    | some d => relocate v r d
    | none => spill r

/-- Brings all values that outlive the next instruction, which is a call, to safety. -/
def buildEvacuate : Generating Unit := do
  (← get).registers.occupants.forM fun (r, v) => evacuateFrom r v

/-- Gives up the registers that a call overwrites. -/
def releaseVolatile : Generating Unit := do
  (← get).registers.occupants.forM fun (r, _) => do
    if ← isVolatile r then changeRegisters (·.release r)

/-- A call. -/
def buildCall (symbol : String) (arguments : List ValueId) (result : ValueId) :
    Generating Unit := do
  let target := (← get).target
  match target.argumentRegisters (← arguments.mapM formatOf) with
  | .error limit => refuse (.lateArguments symbol limit)
  | .ok registers =>
    parallelMove ((registers.map Handle.register).zip arguments) []
    emit .call [.label symbol]
    releaseVolatile
    place result (target.resultRegister (← formatOf result))

/-- A return, with the value in its register. -/
def buildReturn (value? : Option ValueId) : Generating Unit := do
  value?.forM fun v => do
    let f ← formatOf v
    let r := (← get).target.resultRegister f
    let redirected ← if ← isUsed r then pure false else redirect v r v
    if !redirected then transferToRegister r (← handleOf v) f
  emit .ret []

end Codegen.Generating
