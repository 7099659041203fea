import Codegen.Tree.Basic

/-!
# Branches and loops in a tree

Where the parts of branches and loops are, and how branches make chains.

* `Tree.successor?`, `predecessor?`, `branches`: chains of branches;
* `Tree.conditionScope?`, `condition?`, `conditionInitialization`, `body?`: parts;
* `Tree.enclosingLoop?`: the loop around a node.
-/

namespace Codegen.Tree

/-! ## Chains -/

/-- The next branch of a chain. -/
def successor? (t : Tree) (n : NodeId) : Option NodeId :=
  if (t.kind n).isConditional then (t.next? n).filter fun m => (t.kind m).isAlternative else none

/-- The branch of a chain before this one. -/
def predecessor? (t : Tree) (n : NodeId) : Option NodeId :=
  if (t.kind n).isAlternative then (t.previous? n).filter fun m => (t.kind m).isConditional
  else none

/-- The branches from one on, at most that many. -/
def chain (t : Tree) : Nat → Option NodeId → List NodeId
  | 0, _ => []
  | _, none => []
  | fuel + 1, some n => n :: t.chain fuel (t.successor? n)

/-- The branches of a chain after this one. -/
def successors (t : Tree) (n : NodeId) : List NodeId := t.chain (t.size + 1) (t.successor? n)

/-- The branches of a chain from this one on. -/
def branches (t : Tree) (n : NodeId) : List NodeId := n :: t.successors n

/-! ## Parts -/

/-- The scope that holds the tested expression and the statements before it. -/
def conditionScope? (t : Tree) (n : NodeId) : Option NodeId :=
  match t.kind n with
  | .ifBranch _ | .elseIf _ => t.child? n 0
  | .loop _ false => t.child? n 1
  | _ => none

/-- The tested expression. -/
def condition? (t : Tree) (n : NodeId) : Option NodeId := (t.conditionScope? n).bind t.last?

/-- The statements that run before the tested expression. -/
def conditionInitialization (t : Tree) (n : NodeId) : List NodeId :=
  match t.conditionScope? n with
  | some scope => (t.children scope).dropLast
  | none => []

/-- The body of a branch or a loop. -/
def body? (t : Tree) (n : NodeId) : Option NodeId :=
  match t.kind n with
  | .ifBranch _ | .elseIf _ => t.child? n 1
  | .otherwise _ => t.child? n 0
  | .loop _ true => t.child? n 0
  | .loop _ false => t.child? n 3
  | _ => none

/-- The scope that a loop begins with. -/
def loopInitialization? (t : Tree) (n : NodeId) : Option NodeId :=
  match t.kind n with
  | .loop _ false => t.child? n 0
  | _ => none

/-- The scope that runs after each round of a loop. -/
def loopAction? (t : Tree) (n : NodeId) : Option NodeId :=
  match t.kind n with
  | .loop _ false => t.child? n 2
  | _ => none

/-- The innermost loop around a node. -/
def enclosingLoop? (t : Tree) (n : NodeId) : Option NodeId :=
  (t.ancestors n).find? fun m => (t.kind m).isLoop

end Codegen.Tree
