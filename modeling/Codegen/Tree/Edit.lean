import Codegen.Tree.Basic

/-!
# Edits of a tree

The changes of a tree as values. An edit that names a node that was never made has no outcome.

* `Edit`: the changes;
* `Tree.perform?`: the outcome of an edit, with the node that it makes.
-/

namespace Codegen

/-- A change of a tree. -/
inductive Edit
  | create (kind : NodeKind)
  | setKind (node : NodeId) (kind : NodeKind)
  | addChild (parent node : NodeId)
  | addChildren (parent : NodeId) (nodes : List NodeId)
  | remove (node : NodeId)
  | insertBefore (anchor node : NodeId)
  | replace (old new : NodeId)
  | splice (node source : NodeId)
  | clone (node : NodeId)
deriving DecidableEq

/-- The nodes that an edit touches. -/
def Edit.touched : Edit → List NodeId
  | create _ => []
  | setKind n _ => [n]
  | addChild p n => [p, n]
  | addChildren p ns => if ns.isEmpty then [] else p :: ns
  | remove n => [n]
  | insertBefore a n => if a = n then [] else [a, n]
  | replace o n => if o = n then [] else [o, n]
  | splice n s => [n, s]
  | clone n => [n]

namespace Tree

/-- Was the node made in this tree? -/
def contains (t : Tree) (n : NodeId) : Bool := n < t.size

/-- The outcome of an edit whose nodes exist, and the node that it makes. -/
def perform (t : Tree) : Edit → Option NodeId × Tree
  | .create kind => (t.create kind).map some id
  | .setKind n kind => (none, t.setKind n kind)
  | .addChild p n => (none, t.addChild p n)
  | .addChildren p ns => (none, t.addChildren p ns)
  | .remove n => (none, t.remove n)
  | .insertBefore a n => (none, t.insertBefore a n)
  | .replace o n => (none, t.replace o n)
  | .splice n s => (none, t.splice n s)
  | .clone n => (t.clone n).map some id

/-- The outcome of an edit, if all its nodes exist. -/
def perform? (t : Tree) (e : Edit) : Option (Option NodeId × Tree) :=
  if e.touched.all t.contains then some (t.perform e) else none

end Tree

end Codegen
