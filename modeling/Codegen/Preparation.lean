import Codegen.Evaluation
import Codegen.Resolution.Inference
import Codegen.Source

/-!
# Preparation of a function

Before code is generated for a function, its names are resolved and its variables typed, each as
long as the other one makes progress, and its tree is evaluated. Code is generated only if nothing
is left unresolved.

* `Evaluating.settle`: names and types, until nothing changes;
* `Evaluating.prepare`: all that comes before the generation of code;
* `prepareAll`: the bodies of many functions.
-/

namespace Codegen

namespace Evaluating

/-- Gives names and calls their meaning, and counts those that have one. -/
def resolveNames (root : NodeId) (c : ContextId) : Evaluating Nat := fun p =>
  match p.tree.resolveTree p.symbols root c with
  | .ok (count, tree) => .ok count { p with tree }
  | .error e => .error e p

/-- Gives variables their types, and counts those that get one. -/
def inferTypes (root : NodeId) (c : ContextId) : Evaluating Nat := fun p =>
  match p.tree.inferTypes p.symbols root c with
  | .ok (count, symbols) => .ok count { p with symbols }
  | .error e => .error e p

/-- Asks the program. -/
def ask {α : Type} (f : Program → Except Fault α) : Evaluating α := fun p =>
  match f p with
  | .ok a => .ok a p
  | .error e => .error e p

/-- Resolves names and types in turns, at most that often. -/
def settleWithin (root : NodeId) (c : ContextId) : Nat → Evaluating Unit
  | 0 => throw (.crash .missing)
  | fuel + 1 => do
    let resolved ← resolveNames root c
    let inferred ← inferTypes root c
    if resolved ≠ 0 ∨ inferred ≠ 0 then settleWithin root c fuel

/-- Resolves names and types in turns until neither makes progress. Each turn but the last gives
a meaning to a node or a type to a variable. -/
def settle (root : NodeId) (c : ContextId) : Evaluating Unit := do
  let p ← get
  settleWithin root c (p.tree.size + p.symbols.vars.size + 1)

/-- Prepares the body of a function; what stays unresolved is reported by its number. -/
def prepare (f : FunctionId) (body : NodeId) : Evaluating Unit := do
  let c := (← ask (·.symbols.functionInfo f)).context
  settle body c
  let _ ← evaluate body
  let left ← ask fun p => p.tree.unresolved p.symbols body c
  if !left.isEmpty then throw (.report (.unresolved left.length))

end Evaluating

/-- Prepares the body of a function. What was done before a failure stays. -/
def Source.prepare (s : Source) (symbols : SymbolTable) : Option Fault × Source × SymbolTable :=
  match Evaluating.prepare s.function s.body ⟨s.tree, symbols⟩ with
  | .ok _ p => (none, { s with tree := p.tree }, p.symbols)
  | .error e p => (some e, { s with tree := p.tree }, p.symbols)

/-- Prepares bodies in order, whether or not the ones before fail. -/
def prepareAll : List Source → SymbolTable → List (Option Fault) × List Source × SymbolTable
  | [], symbols => ([], [], symbols)
  | s :: rest, symbols =>
    let (outcome, s, symbols) := s.prepare symbols
    let (outcomes, ss, symbols) := prepareAll rest symbols
    (outcome :: outcomes, s :: ss, symbols)

end Codegen
