import Codegen.Routine.Basic

/-!
# Appending instructions

An appended instruction gets its result at once. Its parameters and its result are marked as
needed where it stands, which is how the lifetimes of values are measured.

* `Generating.append`, `appendMarker`, `appendLabel`, `appendJump`: instructions;
* `Generating.newLabel`, `newIdentity`: fresh names;
* `Generating.valueOf`, `bind`, `bindToSlot`: the values of variables;
* `Generating.bindParameters`, `finish`: the first and the last instruction.
-/

namespace Codegen

/-- The place that the result of an instruction has from the start. -/
def InstructionKind.initialHandle : InstructionKind → Handle
  | allocateStack identity bytes => .inline identity bytes
  | getMemoryAddress start offset stride => .scaledMemory start offset stride
  | getObjectPointer start offset => .memory start offset
  | _ => .none

/-- What is known of the result of an instruction from the start. -/
def InstructionKind.initialMetadata : InstructionKind → Metadata
  | getMemoryAddress .. => ⟨[], false, true⟩
  | _ => ⟨[], false, false⟩

namespace Generating

/-! ## Instructions -/

/-- Joins the result of an instruction with one of its parameters: a store with its destination,
a read with its value, which does not follow the read. -/
def joinResult (result : ValueId) : InstructionKind → Generating Unit
  | .move destination _ => changeValues (·.join result destination .full)
  | .getVariable _ value => changeValues (·.join result value .noSend)
  | _ => pure ()

/-- Appends an instruction and gives its result. -/
def append (kind : InstructionKind) (format : Format) : Generating ValueId := do
  let position := (← get).instructions.size
  let result ← create kind.initialHandle format
  changeValues (·.setMetadata result kind.initialMetadata false)
  changeValues (·.setInstruction result position)
  let parameters := kind.parameters
  parameters.forM fun p => useAt p.value position
  useAt result position
  joinResult result kind
  modify fun r => { r with instructions := r.instructions.push ⟨kind, result, parameters, []⟩ }
  return result

/-- Appends an instruction without a result of interest, and gives its position. -/
def appendMarker (kind : InstructionKind) : Generating Nat := do
  let position := (← get).instructions.size
  let _ ← append kind .i64
  return position

/-- Appends a label. -/
def appendLabel (l : Label) : Generating Unit := do let _ ← append (.label l) .i64

/-- Appends a jump, unconditional without a test. -/
def appendJump (l : Label) (test : Option JumpTest) : Generating Unit := do
  let _ ← append (.jump l test) .i64

/-- A fresh label. -/
def newLabel : Generating Label :=
  modifyGet fun r => (r.labels, { r with labels := r.labels + 1 })

/-- A fresh name of a stack array. -/
def newIdentity : Generating String :=
  modifyGet fun r => (r.symbol ++ s!"_S{r.identities}", { r with identities := r.identities + 1 })

/-! ## Variables -/

/-- Notes that a value is that of a variable. -/
def attach (x : ValueId) (v : VariableId) : Generating Unit := do
  let m := (← cellOf x).metadata
  let vars := if m.vars.contains v then m.vars else m.vars ++ [v]
  changeValues (·.setMetadata x { m with vars } false)

/-- Binds a variable to a value. -/
def bind (v : VariableId) (x : ValueId) : Generating Unit := do
  attach x v
  modify fun r => { r with bindings := Binding.put v x r.bindings }

/-- The value that a variable is bound to. -/
def bound? (v : VariableId) : Generating (Option ValueId) := return (← get).bindings.lookup v

/-- Binds a variable to its stack slot. -/
def bindToSlot (v : VariableId) : Generating ValueId := do
  let x ← create (.variableSlot v) (← formatOfVariable v)
  bind v x
  return x

/-- The value of a variable; one that was never assigned is in its stack slot. -/
def valueOf (v : VariableId) : Generating ValueId := do
  match ← bound? v with
  | some x => return x
  | none =>
    let info ← variableOf v
    match info.category with
    | .inner | .parameter => bindToSlot v
    | .member _ => refuse (.bareMember info.name)
    | .global => unsupported (.globalVariable info.name)

/-- Runs a step and takes back what it bound. -/
def keepingBindings (f : Generating Unit) : Generating Unit := do
  let bindings := (← get).bindings
  f
  modify fun r => { r with bindings }

/-! ## Beginning and end -/

/-- Makes the value of an incoming parameter. -/
def bindParameter (v : VariableId) : Generating ValueId := do
  let x ← create .none (← formatOfVariable v)
  bind v x
  return x

/-- Refuses more arguments than there are registers. -/
def checkArguments (function : String) (formats : List Format) : Generating Unit := do
  match (← get).target.argumentRegisters formats with
  | .ok _ => pure ()
  | .error limit => throw (.report (.tooManyArguments function formats.length limit))

/-- Binds the incoming parameters. -/
def bindParameters : Generating Unit := do
  let f ← ask fun r => r.symbols.functionInfo r.function
  checkArguments f.name (← f.parameters.mapM formatOfVariable)
  let xs ← f.parameters.mapM bindParameter
  let _ ← append (.bindParameters xs) .i64

/-- Is the instruction a return? -/
def isReturn (i : Instruction) : Bool :=
  match i.kind with
  | .ret _ => true
  | _ => false

/-- Appends a return unless the last instruction is one. -/
def finish : Generating Unit := do
  if !(← get).instructions.back?.any isReturn then
    let _ ← append (.ret none) .i64

end Generating

end Codegen
