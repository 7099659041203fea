import Codegen.Resolution.Name

/-!
# Inference of variable types

A variable without a type gets the shared type of the values that are assigned to it.

* `Tree.assignedValue?`: the value that is assigned to a node;
* `Tree.inferType`: the type of the values that are assigned to a variable;
* `Tree.inferTypes`: gives the variables of a context, and of all below it, their types.
-/

namespace Codegen.Tree

/-- Is the node an assignment to the other one? -/
def assigns (t : Tree) (assignment n : NodeId) : Bool :=
  t.kind assignment == .operator .assign && t.first? assignment == some n

/-- The value that is assigned to a node, directly or as a member. -/
def assignedValue? (t : Tree) (n : NodeId) : Option NodeId := do
  let p ← t.parent? n
  if t.assigns p n then t.last? p
  else if t.kind p = .link ∧ t.last? p = some n then
    let a ← t.parent? p
    if t.assigns a p then t.last? a else none
  else none

/-- The shared type of the values with a type that are assigned to a variable. -/
def inferType (t : Tree) (s : SymbolTable) (root : NodeId) (v : VariableId) :
    Except Fault (Option TypeId) := do
  let values := (t.findAll root (· == .reference v)).filterMap t.assignedValue?
  let types ← values.mapM (t.typeOf s)
  s.sharedTypes (types.filter (·.isSome))

/-- Gives the listed variables their types, as far as they can be inferred, and counts those. -/
def inferAll (t : Tree) (root : NodeId) : List VariableId → SymbolTable →
    Except Fault (Nat × SymbolTable)
  | [], s => .ok (0, s)
  | v :: rest, s => do
    if (← s.variableInfo v).isUnresolved then
      match ← t.inferType s root v with
      | some i =>
        let (count, s) ← t.inferAll root rest
          { s with vars := s.vars.modify v ({ · with type? := some i }) }
        return (count + 1, s)
      | none => t.inferAll root rest s
    else t.inferAll root rest s

/-- Gives the variables of a context and of all below it their types, and counts those that get
one. -/
def inferTypes (t : Tree) (s : SymbolTable) (root : NodeId) (c : ContextId) :
    Except Fault (Nat × SymbolTable) := do
  let _ ← s.context c
  t.inferAll root ((Scoping.subtree s c).flatMap fun c => s.contexts[c]?.elim [] (·.variableIds)) s

end Codegen.Tree
