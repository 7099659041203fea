import Codegen.Instruction.Basic
import Codegen.Target
import Codegen.Tree.Branch
import Codegen.Typing
import Codegen.Usage

/-!
# Routines

A `Routine` is one function on its way from a tree to machine operations. First instructions are
appended to it, which binds variables to values; then the instructions are built in order, which
puts values into registers and stack slots. A step that reports an error leaves what it did.

* `Routine`: all that is known of a function;
* `Generating`: a step of its generation;
* `Generating.handleOf`, `formatOf`, `isValid`, `isExpiring`: questions about values;
* `Generating.create`, `setHandle`, `useAt`: changes of values;
* `Generating.emit`: adds a machine operation to the instruction that is being built.
-/

namespace Codegen

/-! ## Parts -/

/-- A region that instructions are being appended to. -/
structure Region where
  actives : List Binding
  /-- The instruction that enters the region, if the region merges on its way out. -/
  enter? : Option Nat
deriving DecidableEq, Inhabited

/-- A loop that instructions are being appended to. -/
structure LoopRecord where
  /-- The label of a round. -/
  start : Label
  /-- The label behind the loop. -/
  exit : Label
  /-- The instruction that records where a round expects its values. -/
  symmetry : Nat
  actives : List Binding
deriving DecidableEq, Inhabited

/-- The places of all values at one instruction. -/
structure Snapshot where
  occupancy : Occupancy
  handles : Array Handle
deriving Inhabited

/-- The place of a variable's value when a region is entered. -/
structure Entry where
  owner : VariableId
  value : ValueId
  handle : Handle
deriving DecidableEq, Inhabited

namespace Binding

/-- Binds a variable in a list that is ascending by variables. -/
def put (v : VariableId) (x : ValueId) : List Binding → List Binding
  | [] => [(v, x)]
  | (w, y) :: rest =>
    if v < w then (v, x) :: (w, y) :: rest
    else if v = w then (v, x) :: rest
    else (w, y) :: put v x rest

end Binding

/-- One function on its way to machine operations. -/
structure Routine where
  tree : Tree
  symbols : SymbolTable
  config : Config
  function : FunctionId
  symbol : String
  instructions : Array Instruction
  values : Arena
  registers : RegisterFile
  /-- The value of each variable, ascending by variables. -/
  bindings : List Binding
  /-- The open regions, the innermost first. -/
  regions : List Region
  loops : List (NodeId × LoopRecord)
  /-- The number of labels made so far. -/
  labels : Nat
  /-- The number of stack arrays made so far. -/
  identities : Nat
  /-- The number of spill slots made so far. -/
  temporaries : Nat
  /-- The instruction that is being built. -/
  position : Nat
  snapshots : List (Nat × Snapshot)
  entries : List (Nat × List Entry)
  constants : List DataConstant
  /-- The operations of the instruction that is being built. -/
  operations : List Operation
  spills : Nat
  /-- Was the build started? -/
  built : Bool
deriving Inhabited

namespace Routine

/-- A function without instructions. Its code has no use for threads. -/
def start (tree : Tree) (symbols : SymbolTable) (function : FunctionId) (config : Config) :
    Except Fault Routine := do
  return {
    tree, symbols, function
    config := config.withThreads false
    symbol := ← symbols.symbol function
    instructions := #[]
    values := .empty
    registers := config.architecture.target.registerFile
    bindings := []
    regions := []
    loops := []
    labels := 0
    identities := 0
    temporaries := 0
    position := 0
    snapshots := []
    entries := []
    constants := []
    operations := []
    spills := 0
    built := false }

/-- The architecture that code is generated for. -/
def architecture (r : Routine) : Architecture := r.config.architecture

/-- The roles of the registers. -/
def target (r : Routine) : Target := r.architecture.target

/-- Does the architecture have memory operands? -/
def isX64 (r : Routine) : Bool := r.architecture.isX64

/-- The name of a label in the assembly text. -/
def labelName (r : Routine) (l : Label) : String := r.symbol ++ s!"_L{l}"

/-- All machine operations in the order of their instructions. -/
def body (r : Routine) : List Operation := r.instructions.toList.flatMap (·.operations)

end Routine

/-! ## Steps -/

/-- A step of the generation of a function. -/
abbrev Generating := EStateM Fault Routine

namespace Generating

/-- Stops with a report of malformed input. -/
def refuse {α : Type} (cause : Inconsistency) : Generating α := throw (.inconsistent cause)

/-- Stops with a report of what the architecture cannot express. -/
def unsupported {α : Type} (construct : Unsupported) : Generating α := do
  throw (.report (.unsupported construct (← get).architecture))

/-- Asks the routine. -/
def ask {α : Type} (f : Routine → Except Fault α) : Generating α := fun r =>
  match f r with
  | .ok a => .ok a r
  | .error e => .error e r

/-- The value of an option that a cause explains the lack of. -/
def required {α : Type} (cause : Inconsistency) : Option α → Generating α
  | some a => return a
  | none => refuse cause

/-! ## Values -/

/-- Changes the values. -/
def changeValues (f : Arena → Except Fault Arena) : Generating Unit := fun r =>
  match f r.values with
  | .ok values => .ok () { r with values }
  | .error e => .error e r

/-- The cell of a value. -/
def cellOf (v : ValueId) : Generating Cell := ask (·.values.cell v)

/-- The present handle of a value. -/
def handleOf (v : ValueId) : Generating Handle := return (← cellOf v).handle

/-- The format of a value. -/
def formatOf (v : ValueId) : Generating Format := return (← cellOf v).format

/-- Is a value needed at a position? -/
def isValid (v : ValueId) (position : Nat) : Generating Bool := ask (·.values.isValid v position)

/-- Is a value not needed after the present instruction? -/
def isExpiring (v : ValueId) : Generating Bool := ask fun r => r.values.isExpiring v r.position

/-- Makes a value. -/
def create (h : Handle) (f : Format) : Generating ValueId :=
  modifyGet fun r => let (v, values) := r.values.create h f; (v, { r with values })

/-- Gives a value another handle. -/
def setHandle (v : ValueId) (h : Handle) : Generating Unit := changeValues (·.setHandle v h false)

/-- Marks a value as needed at a position. -/
def useAt (v : ValueId) (position : Nat) : Generating Unit := changeValues (·.useAt v position)

/-- Makes a value that is needed by the present instruction alone. -/
def createBriefly (h : Handle) (f : Format) : Generating ValueId := do
  let v ← create h f
  useAt v (← get).position
  return v

/-! ## Registers and operations -/

/-- Changes the registers. -/
def changeRegisters (f : RegisterFile → Except RegisterError RegisterFile) : Generating Unit :=
  fun r =>
    match f r.registers with
    | .ok registers => .ok () { r with registers }
    | .error e => .error (.ofRegisterError e) r

/-- Adds an operation to the instruction that is being built. -/
def emit (opcode : Opcode) (operands : List Operand) : Generating Unit :=
  modify fun r => { r with operations := r.operations ++ [⟨opcode, operands⟩] }

/-- The identifier of a constant in the data section; equal constants share one. -/
def constantData (value : Number) : Generating String :=
  modifyGet fun r =>
    match r.constants.find? (·.value == value) with
    | some c => (c.identifier, r)
    | none =>
      let identifier := r.symbol ++ s!"_C{r.constants.length}"
      (identifier, { r with constants := r.constants ++ [⟨identifier, value, .qword⟩] })

/-! ## Symbols -/

/-- The declaration of a variable. -/
def variableOf (v : VariableId) : Generating VariableInfo := ask (·.symbols.variableInfo v)

/-- The format of the values of a type; without a type it is the format of addresses. -/
def formatOfType (type? : Option TypeId) : Generating Format := do
  match type? with
  | some i => return (← ask (·.symbols.typeInfo i)).format
  | none => return .i64

/-- The format of a variable. -/
def formatOfVariable (v : VariableId) : Generating Format := do
  formatOfType (← variableOf v).type?

end Generating

end Codegen
