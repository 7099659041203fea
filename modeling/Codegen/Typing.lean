import Codegen.Symbol.Table
import Codegen.Tree.Basic

/-!
# Types of nodes

The type that the values of several types can be used as is their shared type: numbers widen to the
wider number, with decimals on top; other types meet at a common supertype. The unknown type is
`none`.

* `sharedType`, `sharedTypes`: the shared type of two types, and of a list;
* `Tree.typeOf`: the type of an expression, if it is known;
* `Tree.formatOf`: the machine format of an expression;
* `Tree.contextOf?`: the context that a node belongs to.
-/

namespace Codegen

/-! ## Shared types -/

/-- The place of an integer format in the order of widening. -/
def Format.rank (f : Format) : Nat := f.bits * 2 + if f.isSigned then 1 else 0

namespace SymbolTable

/-- The shared type of two number types. -/
def sharedNumber (a b : TypeId) (x y : Format) : TypeId :=
  if x.isDecimal || y.isDecimal then Primitive.ofFormat .decimal
  else if y.rank < x.rank then a else b

/-- The shared type of two known types: the same type, the wider number, or the first direct
supertype of the first type that is a supertype of the second. -/
def sharedKnown (t : SymbolTable) (a b : TypeId) : Except Fault (Option TypeId) := do
  if a = b then return some a
  let i ← t.typeInfo a
  let j ← t.typeInfo b
  match i.kind, j.kind with
  | .number x, .number y => return some (sharedNumber a b x y)
  | _, _ =>
    let above ← t.supertypes b
    return i.supertypes.find? above.contains

/-- The shared type of two types; nothing is shared with an unknown type. -/
def sharedType (t : SymbolTable) : Option TypeId → Option TypeId → Except Fault (Option TypeId)
  | some a, some b => t.sharedKnown a b
  | _, _ => .ok none

/-- The shared type of the types of a list, from the first to the last. -/
def sharedTypes (t : SymbolTable) : List (Option TypeId) → Except Fault (Option TypeId)
  | [] => .ok none
  | a :: rest => rest.foldlM t.sharedType a

end SymbolTable

/-! ## Nodes -/

namespace Tree

/-- The type of an expression, looking that deep into the tree. -/
def typeWithin (t : Tree) (s : SymbolTable) : Nat → NodeId → Except Fault (Option TypeId)
  | 0, _ => .ok none
  | fuel + 1, n =>
    let ofNode (m : Option NodeId) : Except Fault (Option TypeId) :=
      match m with
      | some m => t.typeWithin s fuel m
      | none => .ok none
    match t.kind n with
    | .number _ f => .ok (some (Primitive.ofFormat f))
    | .reference v => do return (← s.variableInfo v).type?
    | .operator o =>
      match o.category with
      | .classic => do s.sharedType (← ofNode (t.first? n)) (← ofNode (t.last? n))
      | .comparison | .logic => .ok (some Primitive.bool)
      | .assign => ofNode (t.first? n)
    | .parenthesis | .link => ofNode (t.last? n)
    | .offset => .ok (some (Primitive.ofFormat .i64))
    | .call f => do return (← s.functionInfo f).returnType?
    | .stackAddress _ _ i => .ok (some i)
    | .typeReference i => .ok (some i)
    | .compiles => .ok (some Primitive.bool)
    | _ => .ok none

/-- The type of an expression. -/
def typeOf (t : Tree) (s : SymbolTable) (n : NodeId) : Except Fault (Option TypeId) :=
  t.typeWithin s (t.size + 1) n

/-- The machine format of an expression; without a type it is the format of addresses. -/
def formatOf (t : Tree) (s : SymbolTable) (n : NodeId) : Except Fault Format := do
  match t.kind n with
  | .number _ f => return f
  | _ =>
    match ← t.typeOf s n with
    | some i => return (← s.typeInfo i).format
    | none => return .i64

/-- The context that a node opens. -/
def openedContext? (t : Tree) (n : NodeId) : Option ContextId :=
  match t.kind n with
  | .scope c | .ifBranch c | .elseIf c | .otherwise c | .loop c _ => some c
  | _ => none

/-- The context that a node belongs to: its own, or that of the nearest node around it. -/
def contextOf? (t : Tree) (n : NodeId) : Option ContextId :=
  (n :: t.ancestors n).findSome? t.openedContext?

end Tree

end Codegen
