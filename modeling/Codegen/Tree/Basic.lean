import Codegen.Tree.Node

/-!
# Syntax trees

A `Tree` is an arena of nodes. Each node knows its parent, its first and last child and its two
neighbours among the children of its parent. Nodes are never deleted; a node that is taken out of
the tree stays in the arena with its own children.

* `Tree.create`, `Tree.setKind`: nodes;
* `Tree.children`, `Tree.descendants`, `Tree.ancestors`: the shape;
* `Tree.remove`, `addChild`, `insertBefore`, `replace`, `splice`, `clone`: changes of the shape.
-/

namespace Codegen

/-! ## Nodes -/

/-- A node with its links. -/
structure Node where
  kind : NodeKind
  position? : Option Position
  parent? : Option NodeId
  first? : Option NodeId
  last? : Option NodeId
  previous? : Option NodeId
  next? : Option NodeId
deriving DecidableEq, Inhabited

/-- A node without links. -/
def Node.detached (kind : NodeKind) (position? : Option Position) : Node :=
  ⟨kind, position?, none, none, none, none, none⟩

/-- The nodes of a syntax tree, numbered in the order of their creation. -/
structure Tree where
  nodes : Array Node
deriving Inhabited

namespace Tree

/-- No nodes. -/
def empty : Tree := ⟨#[]⟩

/-- The number of nodes. -/
def size (t : Tree) : Nat := t.nodes.size

/-- Makes a node without links. -/
def createAt (t : Tree) (kind : NodeKind) (position? : Option Position) : NodeId × Tree :=
  (t.size, ⟨t.nodes.push (.detached kind position?)⟩)

/-- Makes a node without links and without a place in the source. -/
def create (t : Tree) (kind : NodeKind) : NodeId × Tree := t.createAt kind none

/-- A node; one that was never made has no links. -/
def node (t : Tree) (n : NodeId) : Node := t.nodes.getD n default

/-- Changes one node. -/
def update (t : Tree) (n : NodeId) (f : Node → Node) : Tree := ⟨t.nodes.modify n f⟩

/-- Changes one node, if there is one. -/
def update? (t : Tree) (n : Option NodeId) (f : Node → Node) : Tree :=
  match n with
  | some n => t.update n f
  | none => t

/-- The construct of a node. -/
def kind (t : Tree) (n : NodeId) : NodeKind := (t.node n).kind

/-- Turns a node into another construct. -/
def setKind (t : Tree) (n : NodeId) (kind : NodeKind) : Tree := t.update n ({ · with kind })

/-- The place of a node in the source. -/
def position? (t : Tree) (n : NodeId) : Option Position := (t.node n).position?

/-- The parent of a node. -/
def parent? (t : Tree) (n : NodeId) : Option NodeId := (t.node n).parent?

/-- The first child of a node. -/
def first? (t : Tree) (n : NodeId) : Option NodeId := (t.node n).first?

/-- The last child of a node. -/
def last? (t : Tree) (n : NodeId) : Option NodeId := (t.node n).last?

/-- The sibling before a node. -/
def previous? (t : Tree) (n : NodeId) : Option NodeId := (t.node n).previous?

/-- The sibling after a node. -/
def next? (t : Tree) (n : NodeId) : Option NodeId := (t.node n).next?

/-! ## Shape -/

/-- A node and the siblings after it, at most that many. -/
def siblings (t : Tree) : Nat → Option NodeId → List NodeId
  | 0, _ => []
  | _, none => []
  | fuel + 1, some n => n :: t.siblings fuel (t.next? n)

/-- The children of a node in order. -/
def children (t : Tree) (n : NodeId) : List NodeId := t.siblings (t.size + 1) (t.first? n)

/-- The child at an index. -/
def child? (t : Tree) (n : NodeId) (i : Nat) : Option NodeId := (t.children n)[i]?

/-- The node that a path of child indexes leads to. -/
def descend? (t : Tree) (n : NodeId) : List Nat → Option NodeId
  | [] => some n
  | i :: rest => (t.child? n i).bind fun m => t.descend? m rest

/-- The nodes below the listed ones and the listed ones, each before its children. -/
def preorder (t : Tree) : Nat → List NodeId → List NodeId
  | 0, _ => []
  | _, [] => []
  | fuel + 1, n :: rest => n :: t.preorder fuel (t.children n ++ rest)

/-- The nodes below a node, each before its children. -/
def descendants (t : Tree) (n : NodeId) : List NodeId := t.preorder (t.size + 1) (t.children n)

/-- The nodes below a node of a kind, each before its children. -/
def findAll (t : Tree) (n : NodeId) (p : NodeKind → Bool) : List NodeId :=
  (t.descendants n).filter (p <| t.kind ·)

/-- The first node below a node of a kind. -/
def find? (t : Tree) (n : NodeId) (p : NodeKind → Bool) : Option NodeId :=
  (t.descendants n).find? (p <| t.kind ·)

/-- A node and the nodes above it, at most that many. -/
def lineage (t : Tree) : Nat → Option NodeId → List NodeId
  | 0, _ => []
  | _, none => []
  | fuel + 1, some n => n :: t.lineage fuel (t.parent? n)

/-- The nodes above a node, the parent first. -/
def ancestors (t : Tree) (n : NodeId) : List NodeId := t.lineage (t.size + 1) (t.parent? n)

/-- Does the first node lie above the second? -/
def isAncestor (t : Tree) (m n : NodeId) : Bool := (t.ancestors n).contains m

/-! ## Changes of the shape -/

/-- Takes a node from its parent and its neighbours; its children stay with it. -/
def remove (t : Tree) (n : NodeId) : Tree :=
  let ⟨_, _, parent?, _, _, previous?, next?⟩ := t.node n
  let t :=
    match previous? with
    | some p => t.update p ({ · with next? })
    | none => t.update? parent? ({ · with first? := next? })
  let t :=
    match next? with
    | some q => t.update q ({ · with previous? })
    | none => t.update? parent? ({ · with last? := previous? })
  t.update n ({ · with parent? := none, previous? := none, next? := none })

/-- Makes a node the last child of another one. -/
def addChild (t : Tree) (parent n : NodeId) : Tree :=
  let t := t.remove n
  let last? := t.last? parent
  let t := t.update n ({ · with parent? := some parent, previous? := last?, next? := none })
  let t :=
    match last? with
    | some l => t.update l ({ · with next? := some n })
    | none => t.update parent ({ · with first? := some n })
  t.update parent ({ · with last? := some n })

/-- Makes nodes the last children of another one, in order. -/
def addChildren (t : Tree) (parent : NodeId) (ns : List NodeId) : Tree :=
  ns.foldl (fun t n => t.addChild parent n) t

/-- Puts a node before another one. -/
def insertBefore (t : Tree) (anchor n : NodeId) : Tree :=
  if anchor = n then t
  else
    let t := t.remove n
    let parent? := t.parent? anchor
    let previous? := t.previous? anchor
    let t := t.update n ({ · with parent?, previous?, next? := some anchor })
    let t := t.update anchor ({ · with previous? := some n })
    match previous? with
    | some p => t.update p ({ · with next? := some n })
    | none => t.update? parent? ({ · with first? := some n })

/-- Puts a node in the place of another one, which is taken out. -/
def replace (t : Tree) (old new : NodeId) : Tree :=
  if old = new then t
  else (((t.remove new).insertBefore old new)).remove old

/-- Puts the children of a node in the place of another one, which is taken out. -/
def splice (t : Tree) (n source : NodeId) : Tree :=
  ((t.children source).foldl (fun t c => t.insertBefore n c) t).remove n

mutual

/-- Copies a node with all below it into new nodes, to the given depth. -/
def cloneTo (t : Tree) (fuel : Nat) (n : NodeId) : NodeId × Tree :=
  match fuel with
  | 0 => (n, t)
  | fuel + 1 =>
    let (copy, t') := t.createAt (t.kind n) (t.position? n)
    (copy, cloneChildren t' fuel copy (t'.children n))
termination_by (fuel, 0)

/-- Copies nodes and makes the copies children of a node. -/
def cloneChildren (t : Tree) (fuel : Nat) (parent : NodeId) (ns : List NodeId) : Tree :=
  match ns with
  | [] => t
  | n :: rest =>
    let (copy, t) := cloneTo t fuel n
    cloneChildren (t.addChild parent copy) fuel parent rest
termination_by (fuel, ns.length + 1)

end

/-- Copies a node with all below it into new nodes. -/
def clone (t : Tree) (n : NodeId) : NodeId × Tree := t.cloneTo (t.size + 1) n

end Tree

end Codegen
