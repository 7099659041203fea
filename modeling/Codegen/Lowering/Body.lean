import Codegen.Lowering.Condition
import Codegen.Lowering.Loop

/-!
# Lowering of function bodies

* `Generating.lowerNode`: a node, given the lowering of its parts;
* `Generating.lower`: a node and all below it;
* `Generating.lowerFunction`: the whole function, from its parameters to its last return.
-/

namespace Codegen.Generating

/-- Lowers nodes in order and gives the value of the last one. The later branches of a chain are
left to its first branch. -/
def lowerStatements (lower : Lowering) : Option ValueId → List NodeId →
    Generating (Option ValueId)
  | last?, [] => return last?
  | last?, n :: rest => do
    if ((← get).tree.kind n).isAlternative then lowerStatements lower last? rest
    else lowerStatements lower (← lower n) rest

/-- Lowers a node, given the lowering of its parts. -/
def lowerNode (lower : Lowering) (n : NodeId) : Generating (Option ValueId) := do
  match (← get).tree.kind n with
  | .scope _ | .parenthesis => lowerStatements lower none ((← get).tree.children n)
  | .number value format => some <$> create (.constant value) format
  | .reference v => some <$> valueOf v
  | .operator o =>
    match o.category with
    | .classic => some <$> lowerArithmetic lower n o
    | .assign => some <$> lowerAssignment lower n
    | .comparison | .logic => unsupported (.operatorValue o)
  | .link => some <$> lowerLink lower n
  | .offset => some <$> lowerOffset lower n
  | .call f => some <$> lowerCall lower n f
  | .ifBranch _ => do
    lowerChain lower n
    return none
  | .elseIf _ | .otherwise _ => refuse .strayBranch
  | .loop _ forever => do
    if forever then lowerForever lower n else lowerPretested lower n
    return none
  | .control c => do
    lowerControl n c
    return none
  | .ret => do
    lowerReturn lower n
    return none
  | .stackAddress _ bytes _ => do
    let identity ← newIdentity
    some <$> append (.allocateStack identity bytes) .u64
  | .typeReference t => refuse (.notLowerable (.typeReference t))
  | .compiles => refuse (.notLowerable .compiles)
  | .unresolvedName name => refuse (.notLowerable (.unresolvedName name))
  | .unresolvedCall name => refuse (.notLowerable (.unresolvedCall name))

/-- Lowers a node to that depth. -/
def lowerWithin : Nat → Lowering
  | 0 => fun _ => throw (.crash .missing)
  | fuel + 1 => lowerNode (lowerWithin fuel)

/-- Lowers a node and all below it. On the way down each node of the tree is met at most once, and
at most once the comparison that was put above it. -/
def lower : Lowering := fun n => do
  lowerWithin (2 * (← get).tree.size + 1) n

/-- Appends the instructions of a function. -/
def lowerFunction (body : NodeId) : Generating Unit := do
  bindParameters
  let _ ← lower body
  finish

end Codegen.Generating
