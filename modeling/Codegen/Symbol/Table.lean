import Codegen.Fault
import Codegen.Symbol.Mangle

/-!
# The symbol table

Contexts form a forest below the global context; each declares types, functions, variables and
labels by name. A name means the declaration of the nearest context that has one.

* `SymbolTable`, `Context`: the contexts and the symbols that they declare;
* `SymbolTable.findType?`, `findVariable?`, `findFunctions?`, `findLabel?`: the meaning of a name;
* `SymbolTable.supertypes`, `inherits`: inheritance of types;
* `SymbolTable.typeChain`: the types that enclose a type.
-/

namespace Codegen

/-! ## Contexts -/

/-- What a context belongs to. -/
inductive ContextKind
  | global
  | ofType (type : TypeId)
  | ofFunction (function : FunctionId)
  | scope
deriving DecidableEq, Inhabited

/-- The text of what a context belongs to. -/
def ContextKind.text : ContextKind → String
  | global => "global"
  | ofType i => s!"type {i}"
  | ofFunction f => s!"function {f}"
  | scope => "scope"

/-- Declarations by name, in the order in which they were made. -/
abbrev Names (α : Type) := List (String × α)

/-- Declares a name unless it is declared. -/
def Names.adopt {α : Type} (ns : Names α) (name : String) (a : α) : Names α :=
  if (ns.lookup name).isSome then ns else ns ++ [(name, a)]

/-- Declares a name, in place of an earlier declaration. -/
def Names.put {α : Type} (ns : Names α) (name : String) (a : α) : Names α :=
  if (ns.lookup name).isSome then ns.map fun (n, b) => (n, if n == name then a else b)
  else ns ++ [(name, a)]

/-- A context with its declarations. -/
structure Context where
  kind : ContextKind
  /-- The path of the context from the global one. -/
  identity : String
  parent? : Option ContextId
  children : List ContextId
  types : Names TypeId
  functions : Names (List FunctionId)
  vars : Names VariableId
  labels : Names LabelId
  /-- How many contexts were ever made below this one. -/
  created : Nat
  /-- The symbol name, once it was asked for. -/
  mangle? : Option Mangle
deriving Inhabited

namespace Context

/-- A context without declarations. -/
def start (kind : ContextKind) (identity : String) : Context :=
  ⟨kind, identity, none, [], [], [], [], [], 0, none⟩

/-- The variables in the order of their declaration. -/
def variableIds (c : Context) : List VariableId := (c.vars.map (·.2)).mergeSort

/-- The types in the order of their declaration. -/
def typeIds (c : Context) : List TypeId := (c.types.map (·.2)).mergeSort

end Context

/-! ## The table -/

/-- All contexts and all symbols of a program. -/
structure SymbolTable where
  contexts : Array Context
  types : Array TypeInfo
  functions : Array FunctionInfo
  vars : Array VariableInfo
  labels : Array String
deriving Inhabited

namespace SymbolTable

/-- The global context with the built-in types. -/
def start : SymbolTable where
  contexts := #[{ Context.start .global "0" with
    types := Primitive.all.zipIdx.map fun (t, i) => (t.1, i) }]
  types := (Primitive.all.map fun t => ⟨t.1, t.2, globalContext, []⟩).toArray
  functions := #[]
  vars := #[]
  labels := #[]

/-- A context that the caller knows to exist. -/
def context (t : SymbolTable) (c : ContextId) : Except Fault Context :=
  Fault.expect .missing t.contexts[c]?

/-- A type that the caller knows to exist. -/
def typeInfo (t : SymbolTable) (i : TypeId) : Except Fault TypeInfo :=
  Fault.expect .missing t.types[i]?

/-- A function that the caller knows to exist. -/
def functionInfo (t : SymbolTable) (f : FunctionId) : Except Fault FunctionInfo :=
  Fault.expect .missing t.functions[f]?

/-- A variable that the caller knows to exist. -/
def variableInfo (t : SymbolTable) (v : VariableId) : Except Fault VariableInfo :=
  Fault.expect .missing t.vars[v]?

/-- The name of a label that the caller knows to exist. -/
def labelName (t : SymbolTable) (l : LabelId) : Except Fault String :=
  Fault.expect .missing t.labels[l]?

/-! ## Meaning of names -/

/-- A context and the contexts around it, at most that many. -/
def lineage (t : SymbolTable) : Nat → Option ContextId → List ContextId
  | 0, _ => []
  | _, none => []
  | fuel + 1, some c => c :: t.lineage fuel (t.contexts[c]?.bind (·.parent?))

/-- A context and the contexts around it, the innermost first. -/
def enclosing (t : SymbolTable) (c : ContextId) : Except Fault (List ContextId) := do
  let _ ← t.context c
  return t.lineage (t.contexts.size + 1) (some c)

/-- The nearest declaration of a kind, seen from a context. -/
def nearest? {α : Type} (t : SymbolTable) (c : ContextId) (find : Context → Option α) :
    Except Fault (Option α) := do
  return (← t.enclosing c).findSome? fun c => t.contexts[c]?.bind find

/-- The type that a name means. -/
def findType? (t : SymbolTable) (c : ContextId) (name : String) : Except Fault (Option TypeId) :=
  t.nearest? c fun c => c.types.lookup name

/-- The functions that a name means. -/
def findFunctions? (t : SymbolTable) (c : ContextId) (name : String) :
    Except Fault (Option (List FunctionId)) :=
  t.nearest? c fun c => c.functions.lookup name

/-- The variable that a name means. -/
def findVariable? (t : SymbolTable) (c : ContextId) (name : String) :
    Except Fault (Option VariableId) :=
  t.nearest? c fun c => c.vars.lookup name

/-- The label that a name means. -/
def findLabel? (t : SymbolTable) (c : ContextId) (name : String) : Except Fault (Option LabelId) :=
  t.nearest? c fun c => c.labels.lookup name

/-- Is the context the other one, or inside it? -/
def isInside (t : SymbolTable) (c outer : ContextId) : Except Fault Bool :=
  if c = outer then .ok true else return (← t.enclosing c).contains outer

/-! ## Types -/

/-- Follows supertypes breadth first, from pending ones on, keeping the first of equal ones. -/
def closure (t : SymbolTable) : Nat → List TypeId → List TypeId → Except Fault (List TypeId)
  | _, found, [] => .ok found
  | 0, found, _ => .ok found
  | fuel + 1, found, i :: pending =>
    if found.contains i then t.closure fuel found pending
    else do t.closure fuel (found ++ [i]) (pending ++ (← t.typeInfo i).supertypes)

/-- The number of direct supertypes of all types. -/
def supertypeCount (t : SymbolTable) : Nat :=
  t.types.foldl (fun n i => n + i.supertypes.length) 0

/-- All supertypes, the nearest first, and in the order of their declaration. -/
def supertypes (t : SymbolTable) (i : TypeId) : Except Fault (List TypeId) := do
  t.closure (2 * t.supertypeCount + 1) [] (← t.typeInfo i).supertypes

/-- Is the second type among all supertypes of the first? -/
def inherits (t : SymbolTable) (i supertype : TypeId) : Except Fault Bool := do
  return (← t.supertypes i).contains supertype

/-- The types that enclose a type, the outermost first, and the type itself. -/
def typeChain (t : SymbolTable) (i : TypeId) : Except Fault (List TypeId) := do
  let owners := (← t.enclosing (← t.typeInfo i).context).filterMap fun c =>
    match t.contexts[c]?.map Context.kind with
    | some (ContextKind.ofType owner) => some owner
    | _ => none
  return if owners.isEmpty then [i] else owners.reverse

/-! ## Symbol names -/

/-- How a type is spelled in symbol names. -/
def spelling (t : SymbolTable) (i : TypeId) : Except Fault Spelling := do
  match (← t.typeInfo i).code? with
  | some code => return .primitive code
  | none => return .nested (← (← t.typeChain i).mapM fun o => return (← t.typeInfo o).name)

/-- Appends to a mangle what a context adds to it. -/
def extendMangle (t : SymbolTable) (m : Mangle) : ContextKind → Except Fault Mangle
  | .global | .scope => .ok m
  | .ofType i => return ((m.addText "N").addName (← t.typeInfo i).name).addText "E"
  | .ofFunction f => do
    let info ← t.functionInfo f
    let types ← info.parameters.filterMapM fun v => return (← t.variableInfo v).type?
    let spelled ← types.mapM fun i => return (i, ← t.spelling i)
    let m := (m.addName info.name).addParameters spelled
    match info.returnType? with
    | some i => return m.addReturnType i (← t.spelling i)
    | none => return m

/-- The mangle of a context, from its parent's on, and the table that remembers both. -/
def mangleWithin (t : SymbolTable) : Nat → ContextId → Except Fault (Mangle × SymbolTable)
  | 0, _ => .error (.crash .missing)
  | fuel + 1, c => do
    let context ← t.context c
    match context.mangle? with
    | some m => return (m, t)
    | none =>
      let (outer, t) ←
        match context.parent? with
        | some p => t.mangleWithin fuel p
        | none => pure (Mangle.start, t)
      let m ← t.extendMangle outer context.kind
      return (m, { t with contexts := t.contexts.modify c ({ · with mangle? := some m }) })

/-- The mangle of a context, and the table that remembers it. -/
def mangle (t : SymbolTable) (c : ContextId) : Except Fault (Mangle × SymbolTable) :=
  t.mangleWithin (t.contexts.size + 1) c

/-- The symbol name of a function. -/
def symbol (t : SymbolTable) (f : FunctionId) : Except Fault String := do
  return (← t.mangle (← t.functionInfo f).context).1.value

end SymbolTable

end Codegen
