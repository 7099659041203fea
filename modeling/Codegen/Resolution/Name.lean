import Codegen.Resolution.Diagnostic
import Codegen.Typing

/-!
# Resolution of names

A name becomes the nearest variable, else a function without parameters, else a type. A call
becomes the call of the function of that name that accepts the arguments; of several ones the
parameter types of exactly one must be those of the arguments.

* `SymbolTable.accepts`: may a value of a type be passed for a parameter?
* `SymbolTable.overload?`: the function that a call means;
* `Tree.resolveNode`: the meaning of one node;
* `Tree.resolveTree`: gives all nodes below a node their meaning.
-/

namespace Codegen

/-! ## Overloads -/

namespace SymbolTable

/-- May an argument of a type be passed for a parameter? -/
def accepts (s : SymbolTable) (parameter : Option TypeId) (argument : TypeId) :
    Except Fault Bool := do
  match parameter with
  | none => return true
  | some p =>
    if p = argument then return true
    if ← s.inherits argument p then return true
    if (← s.typeInfo p).isNumber then return (← s.typeInfo argument).isNumber
    return false

/-- Do the arguments fit the parameters one by one? -/
def acceptsAll (s : SymbolTable) : List (Option TypeId) → List TypeId → Except Fault Bool
  | [], [] => .ok true
  | p :: ps, a :: as => do if ← s.accepts p a then s.acceptsAll ps as else return false
  | _, _ => .ok false

/-- The types of the parameters of a function. -/
def parameterTypes (s : SymbolTable) (f : FunctionId) : Except Fault (List (Option TypeId)) := do
  (← s.functionInfo f).parameters.mapM fun v => return (← s.variableInfo v).type?

/-- The function that a call means, if there is one; it must not be ambiguous. -/
def overload? (s : SymbolTable) (c : ContextId) (name : String) (arguments : List TypeId) :
    Except Fault (Option FunctionId) := do
  match ← s.findFunctions? c name with
  | none => return none
  | some overloads =>
    let candidates ← overloads.filterM fun f => do
      s.acceptsAll (← s.parameterTypes f) arguments
    match candidates with
    | [] => return none
    | [f] => return some f
    | _ =>
      let exact ← candidates.filterM fun f =>
        return (← s.parameterTypes f) == arguments.map some
      match exact with
      | [f] => return some f
      | _ => throw (.inconsistent (.ambiguousCall name candidates.length))

end SymbolTable

/-! ## Nodes -/

/-- The outcome of the resolution of a node. -/
inductive Resolution
  /-- The node becomes that construct and keeps its children. -/
  | resolved (kind : NodeKind)
  | unresolved (diagnostic : Diagnostic)

namespace Tree

/-- The construct that a name means in a context. -/
def meaning? (s : SymbolTable) (c : ContextId) (name : String) :
    Except Fault (Option NodeKind) := do
  if let some v ← s.findVariable? c name then return some (.reference v)
  if let some f ← s.overload? c name [] then return some (.call f)
  return (← s.findType? c name).map .typeReference

/-- The outcome for a node that gets a meaning or stays as it is. -/
def outcome (t : Tree) (n : NodeId) : Option NodeKind → Except Fault Resolution
  | some kind => .ok (.resolved kind)
  | none =>
    match t.describeUnresolved? n with
    | some d => .ok (.unresolved d)
    | none => .error (.inconsistent .undescribed)

/-- The outcome for a call of a function that is not known yet. -/
def resolveCall (t : Tree) (s : SymbolTable) (n : NodeId) (c : ContextId) (name : String) :
    Except Fault Resolution := do
  let types ← (t.children n).mapM (t.typeOf s)
  match types.mapM id with
  | none =>
    return .unresolved ⟨.call, s!"Arguments of '{name}' have unresolved types", t.position? n⟩
  | some arguments =>
    if (← s.findFunctions? c name).isNone then t.outcome n none
    else
      match ← s.overload? c name arguments with
      | some f => return .resolved (.call f)
      | none =>
        return .unresolved
          ⟨.overload, s!"No overload of '{name}' accepts the arguments", t.position? n⟩

/-- The outcome for a node in a context. -/
def resolveNode (t : Tree) (s : SymbolTable) (n : NodeId) (c : ContextId) :
    Except Fault Resolution := do
  match t.kind n with
  | .unresolvedName name => t.outcome n (← meaning? s c name)
  | .unresolvedCall name => t.resolveCall s n c name
  | kind => throw (.inconsistent (.notResolvable kind))

/-- Gives the listed nodes their meaning, as far as they have one, and counts those. -/
def resolveAll (t : Tree) (s : SymbolTable) (c : ContextId) :
    List NodeId → Except Fault (Nat × Tree)
  | [] => .ok (0, t)
  | n :: rest =>
    match t.resolveNode s n ((t.contextOf? n).getD c) with
    | .ok (.resolved kind) => do
      let (count, t) ← (t.setKind n kind).resolveAll s c rest
      return (count + 1, t)
    | .ok (.unresolved _) | .error (.report _) => t.resolveAll s c rest
    | .error e => .error e

/-- Gives the nodes below a node their meaning, arguments before calls, and counts those that
have one. -/
def resolveTree (t : Tree) (s : SymbolTable) (root : NodeId) (c : ContextId) :
    Except Fault (Nat × Tree) :=
  t.resolveAll s c (t.findAll root NodeKind.isResolvable).reverse

end Tree

end Codegen
