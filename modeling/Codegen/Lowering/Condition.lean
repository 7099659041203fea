import Codegen.Instruction.Jump
import Codegen.Lowering.Expression
import Codegen.Routine.Region

/-!
# Lowering of conditions and branches

A condition becomes a list of comparisons and jumps. The left side of a logical operator jumps to
the outcome that it decides, or to a label before the right side. A condition that compares nothing
is turned into a comparison with zero, in the tree as well. The list is simplified before its steps
are appended; a comparison is appended in a region of its own, so that the registers are as before
when the jump reads its outcome.

Each branch of a chain starts from the state in which the chain was entered and leaves its
variables where they were then, so the code behind the chain sees one state, whichever branch ran.

* `Generating.conditionSteps`: the steps of a condition;
* `Generating.simplifiedSteps`, `lowerCondition`: a condition, simplified and appended;
* `Generating.lowerBranches`: the branches of a chain from one on;
* `Generating.lowerChain`: a chain, from its first branch.
-/

namespace Codegen.Generating

/-! ## Steps -/

/-- Is a comparison of two nodes one of signed words? Decimals are compared like unsigned ones. -/
def comparesSigned (left right : NodeId) : Generating Bool := do
  let l ← ask fun r => r.tree.formatOf r.symbols left
  let r ← ask fun r => r.tree.formatOf r.symbols right
  return !(l.isDecimal || r.isDecimal || (l.isUnsigned && r.isUnsigned))

/-- The steps of a comparison. -/
def comparisonSteps (n : NodeId) (o : Operator) (success failure : Label) :
    Generating (List Step) := do
  let (left, right) ← operandsOf n
  let comparison ← required (.notComparison o) (Comparison.ofOperator? o)
  let signed ← comparesSigned left right
  return [.compare left right, .jump success (some ⟨comparison, signed⟩), .jump failure none]

/-- Puts the comparison of a node with zero in the place of the node. -/
def compareWithZero (n : NodeId) : Generating NodeId := do
  let format ← ask fun r => r.tree.formatOf r.symbols n
  let zero : Number := if format.isDecimal then .decimal .zero else .integer 0
  modifyGet fun r =>
    let (z, t) := r.tree.create (.number zero format)
    let (c, t) := t.create (.operator .notEquals)
    (c, { r with tree := (t.replace n c).addChildren c [n, z] })

/-- The steps that reach one label if a condition holds and another one if not, for a condition
that is no deeper than that. -/
def conditionStepsWithin : Nat → NodeId → Label → Label → Generating (List Step)
  | 0, _, _, _ => throw (.crash .missing)
  | fuel + 1, n, success, failure => do
    match (← get).tree.kind n with
    | .operator o =>
      if o.isLogical then
        let (left, right) ← operandsOf n
        let middle ← newLabel
        let first ←
          if o = .and then conditionStepsWithin fuel left middle failure
          else conditionStepsWithin fuel left success middle
        let second ← conditionStepsWithin fuel right success failure
        return first ++ .label middle :: second
      else if o.isComparison then comparisonSteps n o success failure
      else comparisonSteps (← compareWithZero n) .notEquals success failure
    | .parenthesis =>
      let inner ← required .emptyParenthesis ((← get).tree.last? n)
      conditionStepsWithin fuel inner success failure
    | _ => comparisonSteps (← compareWithZero n) .notEquals success failure

/-- The steps that reach one label if a condition holds and another one if not. -/
def conditionSteps (n : NodeId) (success failure : Label) : Generating (List Step) := do
  conditionStepsWithin ((← get).tree.size + 1) n success failure

/-! ## Instructions -/

/-- Appends a comparison in a region of its own. -/
def appendComparison (lower : Lowering) (left right : NodeId) : Generating Unit := do
  let save ← appendMarker .saveState
  keepingBindings do
    let actives := (← get).bindings
    within actives true do
      let l ← valueOfNode lower left
      let r ← valueOfNode lower right
      let _ ← append (.compare l r) .i64
  let _ ← appendMarker (.restoreState save)

/-- Appends a step. -/
def appendStep (lower : Lowering) : Step → Generating Unit
  | .compare left right => appendComparison lower left right
  | .jump l test => appendJump l test
  | .label l => appendLabel l

/-- The simplified steps of a condition; the label that follows it, if there is one, follows the
last step. -/
def simplifiedSteps (n : NodeId) (success failure : Label) (next? : Option Label) :
    Generating (List Step) := do
  let steps ← conditionSteps n success failure
  return Step.simplify (steps ++ (next?.map .label).toList)

/-- Lowers a condition. -/
def lowerCondition (lower : Lowering) (n : NodeId) (success failure : Label)
    (next? : Option Label) : Generating Unit := do
  (← simplifiedSteps n success failure next?).forM (appendStep lower)

/-! ## Branches -/

/-- Lowers the condition of a branch; where it does not hold, control goes to the label. -/
def lowerBranchTest (lower : Lowering) (n : NodeId) (failure : Label) : Generating Unit := do
  ((← get).tree.conditionInitialization n).forM fun s => do let _ ← lower s
  let test ← required .branchWithoutCondition ((← get).tree.condition? n)
  let success ← newLabel
  lowerCondition lower test success failure (some success)

/-- Lowers the body of a branch. -/
def lowerBranchBody (lower : Lowering) (n : NodeId) : Generating Unit := do
  let body ← required .branchWithoutBody ((← get).tree.body? n)
  let save ← appendMarker .saveState
  let actives := (← get).bindings
  keepingBindings do
    within actives true do
      let _ ← lower body
  let _ ← appendMarker (.restoreState save)
  keepUsedLater n actives

/-- Refuses a chain in which the second branch cannot follow the first. -/
def checkChain (t : Tree) (n next : NodeId) : Generating Unit :=
  match t.kind n with
  | .otherwise c => refuse (.brokenChain (t.kind next) (.otherwise c))
  | k => if (t.kind next).isAlternative then pure () else refuse (.brokenChain (t.kind next) k)

/-- Lowers the branches of a chain. -/
def lowerBranches (lower : Lowering) (stop : Label) : List NodeId → Generating Unit
  | [] => pure ()
  | n :: rest => do
    let t := (← get).tree
    rest.head?.forM (checkChain t n)
    let next ← if rest.isEmpty then pure stop else newLabel
    if (t.kind n).isConditional then lowerBranchTest lower n next
    lowerBranchBody lower n
    if !rest.isEmpty then
      appendJump stop none
      appendLabel next
      lowerBranches lower stop rest

/-- Lowers a chain of branches. -/
def lowerChain (lower : Lowering) (n : NodeId) : Generating Unit := do
  let branches := (← get).tree.branches n
  cache branches false
  prepareAssigned branches
  let _ ← appendMarker (.branch branches)
  let stop ← newLabel
  lowerBranches lower stop branches
  appendLabel stop

end Codegen.Generating
