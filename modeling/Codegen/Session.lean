/-!
# Compilation sessions

A session hands out symbol names, each distinct one once, knows the function that is being
compiled, and counts what was compiled.

* `Session.intern`: the number of a name among the distinct names handed out;
* `Statistics.record`: counts a compiled function;
* `Statistics.merge`: the counts of two sessions;
* `Statistics.text`: the report;
* `Session.count`, `Session.count?`: count without and with a limit.
-/

namespace Codegen

/-! ## Statistics -/

/-- What a session compiled. -/
structure Statistics where
  functions : Nat
  instructions : Nat
  operations : Nat
  /-- The number of operations of the largest function. -/
  largestOperations : Nat
  /-- The name of the largest function. -/
  largestName : String
  spills : Nat
  constants : Nat
deriving DecidableEq

namespace Statistics

/-- Nothing compiled. -/
def zero : Statistics := ⟨0, 0, 0, 0, "", 0, 0⟩

instance : Inhabited Statistics := ⟨zero⟩

/-- Keeps the larger function as the largest; the earlier one of two equals stays. -/
def noteLargest (s : Statistics) (name : String) (operations : Nat) : Statistics :=
  if s.largestOperations < operations then
    { s with largestOperations := operations, largestName := name }
  else s

/-- Counts a compiled function with its operations. -/
def record (s : Statistics) (name : String) (operations : Nat) : Statistics :=
  { s with functions := s.functions + 1, operations := s.operations + operations }.noteLargest
    name operations

/-- The counts of both sessions. -/
def merge (s t : Statistics) : Statistics :=
  { s with
    functions := s.functions + t.functions
    instructions := s.instructions + t.instructions
    operations := s.operations + t.operations
    spills := s.spills + t.spills
    constants := s.constants + t.constants }.noteLargest t.largestName t.largestOperations

/-- Does every count fit 64 bits? -/
def isCountable (s : Statistics) : Bool :=
  [s.functions, s.instructions, s.operations, s.spills, s.constants].all (· < UInt64.size)

/-- The report for people. -/
def text (s : Statistics) : String :=
  "Compilation Session Statistics:\n" ++
    s!"  Functions compiled: {s.functions}\n" ++
    s!"  Instructions built: {s.instructions}\n" ++
    s!"  Operations emitted: {s.operations}\n" ++
    s!"  Spills generated: {s.spills}\n" ++
    s!"  Constants emitted: {s.constants}\n" ++
    if s.largestName.isEmpty then ""
    else s!"  Largest function: {s.largestName} ({s.largestOperations} operations)\n"

end Statistics

/-! ## Sessions -/

/-- A session: the names that were handed out and what was compiled so far. -/
structure Session where
  /-- The distinct names in the order in which they were first handed out. -/
  names : List String
  current? : Option String
  statistics : Statistics
deriving Inhabited

namespace Session

/-- A session at its start. -/
def empty : Session := ⟨[], none, .zero⟩

/-- Hands out a name: its number among the distinct names. -/
def intern (s : Session) (name : String) : Nat × Session :=
  match s.names.findIdx? (· == name) with
  | some i => (i, s)
  | none => (s.names.length, { s with names := s.names ++ [name] })

/-- Names the function that is being compiled. -/
def setCurrent (s : Session) (name : String) : Session := { s with current? := some name }

/-- Changes the statistics. -/
def count (s : Session) (f : Statistics → Statistics) : Session :=
  { s with statistics := f s.statistics }

/-- Changes the statistics, if the counts still fit. -/
def count? (s : Session) (f : Statistics → Statistics) : Option Session :=
  if (f s.statistics).isCountable then some (s.count f) else none

end Session

end Codegen
