import Codegen.Frame
import Codegen.Listing.Routine
import Codegen.Lowering.Body
import Codegen.MachineCode.Encode
import Codegen.Phase
import Codegen.Session
import Codegen.Source

/-!
# Compilation

A function is lowered to instructions, its instructions are built, and the operations are laid out
in a frame and written as text and, on x64, as machine code. Many functions are compiled as tasks
of a phase, each with a session of its own; one that fails leaves the others alone.

* `Routine.output`: the output of a function that was built;
* `Compiling.function`: the output of a function;
* `compileEach`: many functions in one session;
* `compileAll`: many functions as tasks of a phase.
-/

namespace Codegen

/-! ## One function -/

/-- What a function is compiled to. -/
structure Output where
  symbol : String
  operations : List Operation
  text : String
  /-- The machine code, if it was asked for. -/
  bytes? : Option (List UInt8)
  constants : List DataConstant
  frameSize : Nat
deriving Inhabited

/-- The machine code of a function, which is for x64 only. -/
def machineCode (a : Architecture) (operations : List Operation)
    (constants : List DataConstant) : Except Fault (List UInt8) :=
  match a with
  | .x64 =>
    match MachineCode.encode operations constants with
    | .ok bytes => .ok bytes
    | .error e => .error (.report (.encoding e))
  | .arm64 => .error (.report (.unsupported .binaryOutput a))

/-- The output of a function that was built, with machine code if asked for. -/
def Routine.output (r : Routine) (binary : Bool) : Except Fault Output := do
  let frame ← Frame.layout r.config r.instructions.toList r.body
  let operations ← frame.complete r.config r.body
  let text := listing r.architecture r.symbol operations r.constants
  let bytes? ←
    if binary then some <$> machineCode r.architecture operations r.constants else pure none
  return ⟨r.symbol, operations, text, bytes?, r.constants, frame.size⟩

/-- A step of a compilation. -/
abbrev Compiling := EStateM Fault Session

namespace Compiling

/-- The value of a computation without a session. -/
def require {α : Type} : Except Fault α → Compiling α
  | .ok a => return a
  | .error e => throw e

/-- A routine after some steps of its generation. -/
def advance (g : Generating Unit) (r : Routine) : Compiling Routine :=
  match g r with
  | .ok _ r => return r
  | .error e _ => throw e

/-- Compiles a function. -/
def function (config : Config) (binary : Bool) (symbols : SymbolTable) (s : Source) :
    Compiling Output := do
  let r ← require (Routine.start s.tree symbols s.function config)
  modify (·.setCurrent r.symbol)
  let r ← advance (Generating.lowerFunction s.body) r
  modify (·.count fun t => { t with instructions := t.instructions + r.instructions.size })
  let r ← advance Generating.build r
  let o ← require (r.output binary)
  modify (·.count fun t =>
    { t.record o.symbol o.operations.length with
      spills := t.spills + r.spills
      constants := t.constants + o.constants.length })
  return o

end Compiling

/-! ## Many functions -/

/-- Compiles functions in one session; one that fails does not keep the others from it. -/
def compileEach (config : Config) (binary : Bool) (symbols : SymbolTable) :
    List Source → Session → List (Except Fault Output) × Session
  | [], session => ([], session)
  | s :: rest, session =>
    let (outcome, session) :=
      match Compiling.function config binary symbols s session with
      | .ok o session => (.ok o, session)
      | .error e session => (.error e, session)
    let (outcomes, session) := compileEach config binary symbols rest session
    (outcome :: outcomes, session)

/-- What became of many functions. -/
structure Report where
  /-- The outputs of the functions that did not fail, in order. -/
  outputs : List Output
  errors : List String
  statistics : Statistics
deriving Inhabited

/-- Did no function fail? -/
def Report.isSuccess (r : Report) : Bool := r.errors.isEmpty

/-- The outcome of a function compiled in a session of its own. -/
def compileAlone (config : Config) (binary : Bool) (symbols : SymbolTable) (s : Source) :
    Except Fault (Output × Statistics) :=
  match Compiling.function config binary symbols s Session.empty with
  | .ok o session => .ok (o, session.statistics)
  | .error e _ => .error e

/-- How the task of a function ends. -/
def endingOf (symbols : SymbolTable) (s : Source) :
    Except Fault (Output × Statistics) → Ending
  | .ok _ => .success
  | .error (.crash c) => .broke (some c.message)
  | .error (.report e) =>
    match symbols.symbol s.function with
    | .ok symbol => .failure (symbol ++ ": " ++ e.message)
    | .error f => .broke (some f.message)

/-- Compiles each function in a task of a phase. -/
def compileAll (config : Config) (binary : Bool) (symbols : SymbolTable)
    (sources : List Source) : Report :=
  let outcomes := sources.map fun s => (s, compileAlone config binary symbols s)
  let phase := (outcomes.foldl (fun p (s, o) => p.run (endingOf symbols s o))
    (Phase.start "lowering" config.multithreaded)).sync
  let done := outcomes.filterMap fun (_, o) => o.toOption
  ⟨done.map (·.1), phase.errors, done.foldl (fun t d => t.merge d.2) .zero⟩

end Codegen
