import Codegen.Symbol.Table
import Codegen.Tree.Basic

/-!
# Use of variables

Which variables a part of a tree reads and assigns, and whether a variable can be read after it.
Only variables of the function count: locals and parameters.

* `Tree.variablesRead`, `Tree.variablesAssigned`: the variables of a part;
* `Tree.containsCall`: does a part call a function?
* `Tree.isUsedLater`: can a variable be read after a part has run?
-/

namespace Codegen.Tree

/-- Is the variable a local variable or a parameter? -/
def isFrameVariable (s : SymbolTable) (v : VariableId) : Bool :=
  match s.vars[v]?.map VariableInfo.category with
  | some .inner | some .parameter => true
  | _ => false

/-- Does the node name the member of an access? -/
def isMemberName (t : Tree) (n : NodeId) : Bool :=
  match t.parent? n with
  | some p => t.kind p == .link && t.first? p != some n
  | none => false

/-- A node and all below it. -/
def subtree (t : Tree) (n : NodeId) : List NodeId := n :: t.descendants n

/-- The distinct members of a list in ascending order. -/
def sortedSet (vs : List VariableId) : List VariableId := vs.mergeSort.eraseDups

/-- The variable that a node reads or assigns. -/
def referenced? (t : Tree) (s : SymbolTable) (n : NodeId) : Option VariableId :=
  match t.kind n with
  | .reference v => if isFrameVariable s v then some v else none
  | _ => none

/-- The variables that occur in a part, ascending. -/
def variablesRead (t : Tree) (s : SymbolTable) (n : NodeId) : List VariableId :=
  sortedSet (((t.subtree n).filter (!t.isMemberName ·)).filterMap (t.referenced? s))

/-- The variables that a part assigns, ascending. -/
def variablesAssigned (t : Tree) (s : SymbolTable) (n : NodeId) : List VariableId :=
  sortedSet (((t.subtree n).filter (t.kind · == .operator .assign)).filterMap fun a =>
    (t.first? a).bind (t.referenced? s))

/-- Does a part call a function? -/
def containsCall (t : Tree) (n : NodeId) : Bool :=
  (t.subtree n).any fun m =>
    match t.kind m with
    | .call _ => true
    | _ => false

/-- Does a variable occur in a part, other than as the name of a member? -/
def reads (t : Tree) (n : NodeId) (v : VariableId) : Bool :=
  (t.subtree n).any fun m => t.kind m == .reference v && !t.isMemberName m

/-- Does a variable occur in the siblings after a node, or in a loop right around it? -/
def readsAround (t : Tree) (v : VariableId) (n : NodeId) : Bool :=
  (t.siblings (t.size + 1) (t.next? n)).any (t.reads · v) ||
    match t.parent? n with
    | some p => (t.kind p).isLoop && t.reads p v
    | none => false

/-- Can a variable be read after a node has run: by what follows it or a node around it, or by a
loop around it that runs again? -/
def isUsedLater (t : Tree) (n : NodeId) (v : VariableId) : Bool :=
  (n :: t.ancestors n).any (t.readsAround v)

end Codegen.Tree
