import Codegen.Tree.Basic

/-!
# Construction of trees

Each function makes one construct over given children, which become its children in the order
that its kind fixes, and gives the new node.

The functions are state transformers, so that a larger construct is written as a sequence.
-/

namespace Codegen

/-- A construction that adds nodes to a tree. -/
abbrev Construct := StateM Tree

namespace Construct

/-! ## Single nodes -/

/-- A new node without children. -/
def create (kind : NodeKind) (position? : Option Position) : Construct NodeId :=
  modifyGet fun t => t.createAt kind position?

/-- A new node over children, with a place in the source. -/
def nodeAt (kind : NodeKind) (position? : Option Position) (children : List NodeId) :
    Construct NodeId := do
  let n ← create kind position?
  modify fun t => t.addChildren n children
  return n

/-- A new node over children. -/
def node (kind : NodeKind) (children : List NodeId) : Construct NodeId := nodeAt kind none children

/-- Puts nodes before another one, in order. -/
def allBefore (anchor : NodeId) (ns : List NodeId) : Construct Unit :=
  modify fun t => ns.foldl (fun t n => t.insertBefore anchor n) t

/-- A literal of any value and format. -/
def number (value : Number) (format : Format) : Construct NodeId :=
  create (.number value format) none

/-- A binary operator. -/
def operator (o : Operator) (left right : NodeId) : Construct NodeId :=
  node (.operator o) [left, right]

/-- Access to a member; its variable node is made after the access. -/
def link (object : NodeId) (member : VariableId) : Construct NodeId := do
  let n ← create .link none
  let m ← create (.reference member) none
  modify fun t => t.addChildren n [object, m]
  return n

/-- A scope over statements. -/
def scope (context : ContextId) (statements : List NodeId) : Construct NodeId :=
  node (.scope context) statements

/-! ## Branches and loops -/

/-- A branch with a condition; the statements of the initialization run before the condition. -/
def conditional (kind : NodeKind) (context : ContextId) (initialization : List NodeId)
    (condition : NodeId) (body : List NodeId) : Construct NodeId := do
  let n ← create kind none
  let conditionScope ← scope context initialization
  modify fun t => t.addChild conditionScope condition
  let bodyScope ← scope context body
  modify fun t => t.addChildren n [conditionScope, bodyScope]
  return n

/-- The last branch of a chain. -/
def otherwise (context : ContextId) (body : List NodeId) : Construct NodeId := do
  let n ← create (.otherwise context) none
  let bodyScope ← scope context body
  modify fun t => t.addChild n bodyScope
  return n

/-- A loop that tests its condition before each round. -/
def pretestedLoop (context : ContextId) (initialization : List NodeId) (condition : NodeId)
    (action body : List NodeId) : Construct NodeId := do
  let n ← create (.loop context false) none
  let initializationScope ← scope context initialization
  let conditionScope ← scope context [condition]
  let actionScope ← scope context action
  let bodyScope ← scope context body
  modify fun t =>
    t.addChildren n [initializationScope, conditionScope, actionScope, bodyScope]
  return n

/-- An endless loop. -/
def foreverLoop (context : ContextId) (body : List NodeId) : Construct NodeId := do
  let n ← create (.loop context true) none
  let bodyScope ← scope context body
  modify fun t => t.addChild n bodyScope
  return n

end Construct

end Codegen
