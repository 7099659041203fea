import Codegen.Symbol.Declare
import Codegen.Tree.Basic
import Codegen.Tree.Branch
import Codegen.Typing

/-!
# Evaluation of a tree

Four passes simplify a tree before code is generated, in rounds until none of them changes it:
operators with a known outcome become literals, logical operators with one literal operand are
simplified, branches that are always or never taken are resolved, and tests for well-formedness
become 0 or 1.

* `Tree.sourceOf`: the node that makes the value of a node;
* `Tree.outcome?`: the outcome of a comparison or of a logical operator that is known beforehand;
* `Tree.foldOperators`, `Tree.simplifyLogic`: the passes over operators;
* `Evaluating.decideBranches`: the pass over branches;
* `Evaluating.decideProbes`: the pass over tests for well-formedness;
* `Evaluating.evaluate`: the rounds.
-/

namespace Codegen

namespace Tree

/-! ## Sources -/

/-- The assignments to a variable below a node. -/
def assignmentsTo (t : Tree) (root : NodeId) (v : VariableId) : List NodeId :=
  (t.findAll root (· == .operator .assign)).filter fun a =>
    match t.first? a with
    | some d => t.kind d == .reference v
    | none => false

/-- The node one step nearer to the source: inside a parenthesis, or the value of the only
assignment to a variable. -/
def sourceStep? (t : Tree) (root n : NodeId) : Option NodeId :=
  match t.kind n with
  | .parenthesis => t.last? n
  | .reference v =>
    match t.assignmentsTo root v with
    | [a] => (t.last? a).filter (· != n)
    | _ => none
  | _ => none

/-- The node that many steps nearer to the source, or the source. -/
def sourceWithin (t : Tree) (root : NodeId) : Nat → NodeId → NodeId
  | 0, n => n
  | fuel + 1, n =>
    match t.sourceStep? root n with
    | some m => t.sourceWithin root fuel m
    | none => n

/-- The node that makes the value of a node, behind parentheses and variables that are assigned
once. The number of nodes bounds the steps, so that circular assignments end somewhere. -/
def sourceOf (t : Tree) (root n : NodeId) : NodeId := t.sourceWithin root t.size n

/-! ## Outcomes -/

/-- Is the node a literal zero? -/
def isZeroLiteral (t : Tree) (n : NodeId) : Bool := (t.kind n).number?.any (·.isZero)

/-- Does the node give the address of bytes on the stack? -/
def isStackAddress (t : Tree) (root n : NodeId) : Bool :=
  match t.kind (t.sourceOf root n) with
  | .stackAddress .. => true
  | _ => false

/-- The outcome of a comparison or logical operator on numbers. -/
def decideNumbers? (o : Operator) (a b : Number) : Option Bool :=
  match o with
  | .and => some (!a.isZero && !b.isZero)
  | .or => some (!a.isZero || !b.isZero)
  | _ => (Comparison.ofOperator? o).map fun c => c.holdsNumber a b

/-- Does the operator compare a zero with an address on the stack for equality? -/
def comparesStackWithZero (t : Tree) (root : NodeId) (o : Operator) (l r : NodeId) : Bool :=
  (o == .equals || o == .notEquals) &&
    (t.isZeroLiteral l && t.isStackAddress root r || t.isZeroLiteral r && t.isStackAddress root l)

/-- The outcome of an operator node, if it is known. An address on the stack is never zero. -/
def outcome? (t : Tree) (root n : NodeId) : Option Bool := do
  let o ← (t.kind n).operator?
  if !o.isComparison && !o.isLogical then none
  else
    let l ← t.first? n
    let r ← t.last? n
    if t.comparesStackWithZero root o l r then some (o == .notEquals)
    else decideNumbers? o (← (t.kind l).number?) (← (t.kind r).number?)

/-! ## Operators -/

/-- Puts a literal in the place of a node. -/
def replaceByNumber (t : Tree) (n : NodeId) (value : Word) : Tree :=
  let (m, t) := t.createAt (.number (.integer value) .i64) (t.position? n)
  t.replace n m

/-- The literal of a truth value. -/
def truth (b : Bool) : Word := if b then 1 else 0

/-- Turns an operator with a known outcome into a literal. -/
def foldOperator? (t : Tree) (root n : NodeId) : Option Tree :=
  (t.outcome? root n).map fun b => t.replaceByNumber n (truth b)

/-- Applies a change to each of some nodes, and tells whether one of them changed. -/
def changeAll (change : Tree → NodeId → Option Tree) (t : Tree) (ns : List NodeId) : Bool × Tree :=
  ns.foldl (fun (changed, t) n => ((change t n).elim (changed, t) (true, ·))) (false, t)

/-- Turns the operators with a known outcome into literals, inner ones first. -/
def foldOperators (t : Tree) (root : NodeId) : Bool × Tree :=
  changeAll (fun t n => t.foldOperator? root n) t
    (t.findAll root (·.operator?.isSome)).reverse

/-- Simplifies a logical operator with a literal operand: the literal decides the outcome, or the
other operand does. -/
def simplifyLogical? (t : Tree) (n : NodeId) : Option Tree := do
  let o ← (t.kind n).operator?.filter (·.isLogical)
  let l ← t.first? n
  let r ← t.last? n
  let (literal, other) ←
    match (t.kind l).number?, (t.kind r).number? with
    | some a, _ => some (a, r)
    | none, some b => some (b, l)
    | none, none => none
  return match o, literal.isZero with
    | .and, true => t.replaceByNumber n 0
    | .or, false => t.replaceByNumber n 1
    | _, _ => t.replace n other

/-- Simplifies the logical operators that are still in the tree, inner ones first. -/
def simplifyLogic (t : Tree) (root : NodeId) : Bool × Tree :=
  changeAll (fun t n => if (t.parent? n).isSome then t.simplifyLogical? n else none) t
    (t.findAll root fun k => k.operator?.any (·.isLogical)).reverse

end Tree

/-! ## Branches -/

/-- A tree with the contexts of its program. -/
structure Program where
  tree : Tree
  symbols : SymbolTable

/-- A change of a tree and of its contexts. -/
abbrev Evaluating := EStateM Fault Program

namespace Evaluating

/-- Changes the tree. -/
def modifyTree (f : Tree → Tree) : Evaluating Unit := modify fun p => { p with tree := f p.tree }

/-- Changes the tree by a pass that tells whether it changed anything. -/
def pass (f : Tree → Bool × Tree) : Evaluating Bool :=
  modifyGet fun p => let (changed, tree) := f p.tree; (changed, { p with tree })

/-- Changes the contexts. -/
def scoping (f : Scoping Unit) : Evaluating Unit := fun p =>
  match f p.symbols with
  | .ok _ symbols => .ok () { p with symbols }
  | .error e symbols => .error e { p with symbols }

/-- Puts the statements of a body in the place of a node; the context of the body becomes part of
the one around. -/
def inlineBody (n body : NodeId) : Evaluating Unit := do
  let t := (← get).tree
  match t.kind body, (t.parent? n).bind t.contextOf? with
  | .scope inner, some outer => if inner ≠ outer then scoping (Scoping.merge outer inner)
  | _, _ => pure ()
  modifyTree fun t => t.splice n body

/-- Resolves a branch that is always taken. The branches after it go; the first branch of a chain
leaves its statements, a later one becomes the last branch. -/
def takeBranch (n : NodeId) : Evaluating Bool := do
  let first := ((← get).tree.predecessor? n).isNone
  modifyTree fun t => (t.successors n).foldl Tree.remove t
  let t := (← get).tree
  let some body := t.body? n | return false
  if first then inlineBody n body
  else
    modifyTree fun t =>
      match t.openedContext? n with
      | some c => (((t.conditionScope? n).elim t t.remove)).setKind n (.otherwise c)
      | none => t
  return true

/-- Resolves a branch that is never taken. It goes; the branch after it begins the chain, and a
last branch leaves its statements. -/
def dropBranch (n : NodeId) : Evaluating Bool := do
  let t := (← get).tree
  match t.predecessor? n, t.successor? n with
  | none, some m =>
    match t.kind m, t.body? m with
    | .elseIf c, _ =>
      modifyTree fun t => (t.setKind m (.ifBranch c)).remove n
      return true
    | .otherwise _, some body =>
      modifyTree (·.remove m)
      inlineBody n body
      return true
    | _, _ => return false
  | _, _ =>
    modifyTree (·.remove n)
    return true

/-- Resolves a branch whose condition is a literal alone. -/
def decideBranch (n : NodeId) : Evaluating Bool := do
  let t := (← get).tree
  match (t.condition? n).bind fun c => (t.kind c).number? with
  | none => return false
  | some value =>
    if !(t.conditionInitialization n).isEmpty then return false
    else if value.isZero then dropBranch n
    else takeBranch n

/-- Resolves the first of some branches that can be resolved. -/
def decideFirst : List NodeId → Evaluating Bool
  | [] => return false
  | n :: rest => do if ← decideBranch n then return true else decideFirst rest

/-- Resolves branches, each time the first one that can be, at most that often. -/
def decideBranches (root : NodeId) : Nat → Evaluating Bool
  | 0 => throw (.crash .missing)
  | fuel + 1 => do
    if ← decideFirst ((← get).tree.findAll root NodeKind.isConditional) then
      let _ ← decideBranches root fuel
      return true
    else return false

/-! ## Tests for well-formedness -/

/-- Does the node keep a test around it from succeeding? -/
def isProblem (p : Program) (n : NodeId) : Bool :=
  match p.tree.kind n with
  | .unresolvedName _ | .unresolvedCall _ => true
  | .reference v => p.symbols.vars[v]?.any (·.isUnresolved)
  | _ => false

/-- Turns a test into 1 if all below it has a meaning and a type, else into 0. -/
def decideProbe (n : NodeId) : Evaluating Unit :=
  modify fun p =>
    let ok := !(p.tree.descendants n).any (isProblem p)
    { p with tree := p.tree.replaceByNumber n (Tree.truth ok) }

/-- Turns all tests into literals. -/
def decideProbes (root : NodeId) : Evaluating Bool := do
  let probes := (← get).tree.findAll root (· == .compiles)
  probes.forM decideProbe
  return !probes.isEmpty

/-! ## Rounds -/

/-- All passes once. -/
def evaluateOnce (root : NodeId) : Evaluating Bool := do
  let folded ← pass (·.foldOperators root)
  let simplified ← pass (·.simplifyLogic root)
  let decided ← decideBranches root ((← get).tree.size + 1)
  let probed ← decideProbes root
  return folded || simplified || decided || probed

/-- Rounds of all passes, at most that many, with the number of those that changed the tree. -/
def evaluateWithin (root : NodeId) : Nat → Evaluating Nat
  | 0 => throw (.crash .missing)
  | fuel + 1 => do
    if ← evaluateOnce root then return (← evaluateWithin root fuel) + 1 else return 0

/-- Rounds of all passes until the tree stops changing, with the number of those that changed it.
Each round takes an operator, a condition or a test out of the tree. -/
def evaluate (root : NodeId) : Evaluating Nat := do
  evaluateWithin root ((← get).tree.size + 2)

end Evaluating

end Codegen
