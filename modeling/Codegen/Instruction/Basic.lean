import Codegen.Operation
import Codegen.Tree.Node
import Codegen.Value.Arena

/-!
# Instructions

The instruction stream between the syntax tree and the machine operations. An instruction is
appended with its result and its parameters, and later built into machine operations.

* `InstructionKind`: what an instruction does;
* `InstructionKind.parameters`: the values that it uses, with their roles;
* `Instruction`: an instruction at its place in the stream.
-/

namespace Codegen

/-! ## Parts of instructions -/

/-- A jump target within one function. -/
abbrev Label := Nat

/-- The roles of a parameter. -/
structure Role where
  destination : Bool
  reads : Bool
  writes : Bool
  /-- Does the parameter stay apart from the result? -/
  apart : Bool
deriving DecidableEq, Inhabited

namespace Role

/-- The parameter is read. -/
def read : Role := ⟨false, true, false, false⟩

/-- The parameter is read, and it is no operand of the operation itself. -/
def observed : Role := ⟨false, true, false, true⟩

/-- The parameter is read and may be overwritten. -/
def updated : Role := ⟨false, true, true, false⟩

/-- The parameter is bound. -/
def bound : Role := ⟨true, false, false, false⟩

/-- The parameter names a place that is written. -/
def stored : Role := ⟨true, false, true, false⟩

/-- The parameter names a place that another value is brought to. -/
def home : Role := ⟨true, false, false, true⟩

end Role

/-- A value that an instruction uses. -/
structure Parameter where
  value : ValueId
  role : Role
deriving DecidableEq, Inhabited

/-- The binding of a variable to a value. -/
abbrev Binding := VariableId × ValueId

/-- A variable whose value inside a region has to end up where the outer value was. -/
structure MergePair where
  owner : VariableId
  outer : ValueId
  inner : ValueId
deriving DecidableEq, Inhabited

/-- The test of a conditional jump, and whether it compares signed words. -/
structure JumpTest where
  comparison : Comparison
  signed : Bool
deriving DecidableEq, Inhabited

/-! ## Instructions -/

/-- What an instruction does. -/
inductive InstructionKind
  /-- Binds the incoming parameters to their registers. -/
  | bindParameters (parameters : List ValueId)
  | label (label : Label)
  /-- A jump, unconditional without a test. -/
  | jump (label : Label) (test : Option JumpTest)
  | compare (left right : ValueId)
  /-- A store. -/
  | move (destination source : ValueId)
  /-- A copy into a new register. -/
  | duplicate (value : ValueId)
  | addition (first second : ValueId)
  | subtraction (first second : ValueId)
  | multiplication (first second : ValueId)
  | getMemoryAddress (start offset : ValueId) (stride : Word)
  | getObjectPointer (start : ValueId) (offset : Word)
  | allocateStack (identity : String) (bytes : Nat)
  | call (symbol : String) (arguments : List ValueId)
  | ret (value : Option ValueId)
  /-- Moves the values that survive the next call out of volatile registers. -/
  | evacuate
  | saveState
  /-- Returns to the state that the instruction at that position saved. -/
  | restoreState (save : Nat)
  | enterScope (actives : List Binding)
  /-- Brings the inner values to where the outer ones were at the entry. -/
  | mergeScope (enter : Nat) (pairs : List MergePair)
  | branch (branches : List NodeId)
  | symmetryStart (loop : NodeId) (actives : List Binding)
  /-- Brings the values of a round to where the loop expects them. -/
  | symmetryEnd (start : Nat) (pairs : List MergePair)
  | getVariable (owner : VariableId) (value : ValueId)
  | cacheVariables (vars : List Binding) (preserved : Bool)
deriving DecidableEq, Inhabited

namespace InstructionKind

/-- The name of an instruction. -/
def name : InstructionKind → String
  | bindParameters .. => "initialize"
  | label .. => "label"
  | jump .. => "jump"
  | compare .. => "compare"
  | move .. => "move"
  | duplicate .. => "duplicate"
  | addition .. => "addition"
  | subtraction .. => "subtraction"
  | multiplication .. => "multiplication"
  | getMemoryAddress .. => "get-memory-address"
  | getObjectPointer .. => "get-object-pointer"
  | allocateStack .. => "allocate-stack"
  | call .. => "call"
  | ret .. => "return"
  | evacuate => "evacuate"
  | saveState => "save-state"
  | restoreState .. => "restore-state"
  | enterScope .. => "enter-scope"
  | mergeScope .. => "merge-scope"
  | branch .. => "branch"
  | symmetryStart .. => "symmetry-start"
  | symmetryEnd .. => "symmetry-end"
  | getVariable .. => "get-variable"
  | cacheVariables .. => "cache-variables"

/-- Does the instruction never make machine operations of its own? -/
def isAbstract : InstructionKind → Bool
  | saveState | restoreState .. | enterScope .. | branch .. | symmetryStart .. | getVariable ..
  | allocateStack .. | getMemoryAddress .. | getObjectPointer .. => true
  | _ => false

/-- The parameters of merged variables. -/
def mergeParameters (pairs : List MergePair) : List Parameter :=
  pairs.flatMap fun p => [⟨p.outer, .home⟩, ⟨p.inner, .read⟩]

/-- The parameters of observed bindings. -/
def observedParameters (bindings : List Binding) : List Parameter :=
  bindings.map fun b => ⟨b.2, .observed⟩

/-- The values that an instruction uses, with their roles. -/
def parameters : InstructionKind → List Parameter
  | bindParameters vs => vs.map (⟨·, .bound⟩)
  | compare left right => [⟨left, .read⟩, ⟨right, .read⟩]
  | move destination source => [⟨destination, .stored⟩, ⟨source, .read⟩]
  | duplicate value => [⟨value, .read⟩]
  | addition first second | subtraction first second | multiplication first second =>
    [⟨first, .updated⟩, ⟨second, .read⟩]
  | getMemoryAddress start offset _ => [⟨start, .observed⟩, ⟨offset, .observed⟩]
  | getObjectPointer start _ => [⟨start, .observed⟩]
  | call _ arguments => arguments.map (⟨·, .read⟩)
  | ret value => value.toList.map (⟨·, .read⟩)
  | enterScope actives | symmetryStart _ actives | cacheVariables actives _ =>
    observedParameters actives
  | mergeScope _ pairs | symmetryEnd _ pairs => mergeParameters pairs
  | getVariable _ value => [⟨value, .read⟩]
  | label _ | jump .. | allocateStack .. | evacuate | saveState | restoreState _ | branch _ => []

end InstructionKind

/-- An instruction at its place in the stream. -/
structure Instruction where
  kind : InstructionKind
  result : ValueId
  parameters : List Parameter
  /-- The machine operations, once they are built. -/
  operations : List Operation
deriving Inhabited

end Codegen
