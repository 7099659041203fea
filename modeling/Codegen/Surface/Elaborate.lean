import Codegen.Source
import Codegen.Surface.Basic
import Codegen.Symbol.Declare
import Codegen.Tree.Construct

/-!
# Elaboration of surface programs

Symbols are declared first: globals, types, supertypes and members, functions. Then the body of
each function becomes a tree, with a context for each scope, branch and loop. The nodes of a
construct's parts are made before the construct, from left to right.

* `Surface.node`, `Surface.nodes`: the nodes of forms;
* `Surface.load`: the symbols and the trees of a program.
-/

namespace Codegen.Surface

/-! ## State -/

/-- Why a program cannot be elaborated. -/
inductive Problem
  /-- A name that means nothing, or a declaration where a value is needed. -/
  | illFormed
  | fault (fault : Fault)

/-- What was elaborated so far. -/
structure Elaborated where
  symbols : SymbolTable
  tree : Tree
  types : List (String × TypeId)
  functions : List (String × FunctionId)

/-- A step of the elaboration. -/
abbrev Elaborating := EStateM Problem Elaborated

/-- The built-in types only. -/
def Elaborated.start : Elaborated :=
  ⟨.start, .empty, Primitive.all.zipIdx.map fun (t, i) => (t.1, i), []⟩

/-- Changes the symbols. -/
def scoping {α : Type} (f : Scoping α) : Elaborating α := fun e =>
  match f e.symbols with
  | .ok a symbols => .ok a { e with symbols }
  | .error p symbols => .error (.fault p) { e with symbols }

/-- Asks the symbols. -/
def ask {α : Type} (f : SymbolTable → Except Fault α) : Elaborating α := scoping (Scoping.ask f)

/-- Adds to the tree. -/
def construct {α : Type} (f : Construct α) : Elaborating α :=
  modifyGet fun e => let (a, tree) := f e.tree; (a, { e with tree })

/-- What a name has to mean. -/
def known {α : Type} : Option α → Elaborating α
  | some a => return a
  | none => throw .illFormed

/-- The type of a name. -/
def typeNamed (name : String) : Elaborating TypeId := do known ((← get).types.lookup name)

/-- The type of a name, if there is a name. -/
def typeNamed? : Option String → Elaborating (Option TypeId)
  | some name => return some (← typeNamed name)
  | none => return none

/-- The function of a name. -/
def functionNamed (name : String) : Elaborating FunctionId := do
  known ((← get).functions.lookup name)

/-- The variable of a name, seen from a context. -/
def variableNamed (c : ContextId) (name : String) : Elaborating VariableId := do
  known (← ask (·.findVariable? c name))

/-- The variable of a member of a type. -/
def memberNamed (type name : String) : Elaborating VariableId := do
  let i ← typeNamed type
  variableNamed (← ask (·.typeInfo i)).context name

/-! ## Nodes -/

mutual

/-- The node of a form; a declaration has none. -/
def node? (c : ContextId) : Form → Elaborating (Option NodeId)
  | .declare name type => do
    let type? ← typeNamed? type
    let _ ← scoping (Scoping.declareLocal c name type?)
    return none
  | .number value format => return some (← construct (.number value format))
  | .reference name => do
    let v ← variableNamed c name
    return some (← construct (.create (.reference v) none))
  | .member type name => do
    let v ← memberNamed type name
    return some (← construct (.create (.reference v) none))
  | .operator o left right => do
    let l ← known (← node? c left)
    let r ← known (← node? c right)
    return some (← construct (.operator o l r))
  | .parenthesis content => do
    let ns ← values c content
    return some (← construct (.node .parenthesis ns))
  | .call function arguments => do
    let f ← functionNamed function
    let ns ← values c arguments
    return some (← construct (.node (.call f) ns))
  | .link object type member => do
    let o ← known (← node? c object)
    let v ← memberNamed type member
    return some (← construct (.link o v))
  | .offset object index => do
    let o ← known (← node? c object)
    let i ← known (← node? c index)
    return some (← construct (.node .offset [o, i]))
  | .scope statements => do
    let inner ← scoping (Scoping.createScope c)
    let ns ← nodes inner statements
    return some (← construct (.scope inner ns))
  | .ifBranch condition body initialization => do
    let inner ← scoping (Scoping.createScope c)
    let is ← nodes inner initialization
    let k ← known (← node? inner condition)
    let bs ← nodes inner body
    return some (← construct (.conditional (.ifBranch inner) inner is k bs))
  | .elseIf condition body initialization => do
    let inner ← scoping (Scoping.createScope c)
    let is ← nodes inner initialization
    let k ← known (← node? inner condition)
    let bs ← nodes inner body
    let n ← construct (.conditional (.elseIf inner) inner [] k bs)
    construct (.allBefore k is)
    return some n
  | .otherwise body => do
    let inner ← scoping (Scoping.createScope c)
    let bs ← nodes inner body
    return some (← construct (.otherwise inner bs))
  | .loop initialization condition action body before => do
    let inner ← scoping (Scoping.createScope c)
    let is ← nodes inner initialization
    let ks ← nodes inner before
    let k ← known (← node? inner condition)
    let as ← nodes inner action
    let bs ← nodes inner body
    let n ← construct (.pretestedLoop inner is k as bs)
    construct (.allBefore k ks)
    return some n
  | .forever body => do
    let inner ← scoping (Scoping.createScope c)
    let bs ← nodes inner body
    return some (← construct (.foreverLoop inner bs))
  | .control k => return some (← construct (.create (.control k) none))
  | .ret => return some (← construct (.create .ret none))
  | .retValue value => do
    let v ← known (← node? c value)
    return some (← construct (.node .ret [v]))
  | .stackAddress identity bytes type => do
    let i ← typeNamed type
    return some (← construct (.create (.stackAddress identity bytes i) none))
  | .compiles expressions => do
    let ns ← values c expressions
    return some (← construct (.node .compiles ns))
  | .typeReference type => do
    let i ← typeNamed type
    return some (← construct (.create (.typeReference i) none))
  | .name name position? => return some (← construct (.create (.unresolvedName name) position?))
  | .unknownCall function arguments position? => do
    let ns ← values c arguments
    return some (← construct (.nodeAt (.unresolvedCall function) position? ns))
  | .bare kind children => do
    let ns ← values c children
    return some (← construct (.node (kind.kind c) ns))

/-- The nodes of statements. -/
def nodes (c : ContextId) : List Form → Elaborating (List NodeId)
  | [] => return []
  | f :: rest => do
    let n ← node? c f
    let ns ← nodes c rest
    return n.toList ++ ns

/-- The nodes of expressions. -/
def values (c : ContextId) : List Form → Elaborating (List NodeId)
  | [] => return []
  | f :: rest => do
    let n ← known (← node? c f)
    let ns ← values c rest
    return n :: ns

end

/-! ## Programs -/

/-- The body of a function, by the name of the function in its program. -/
structure Body extends Source where
  key : String

/-- An elaborated program: its symbols and the bodies of its functions. -/
structure Loaded where
  symbols : SymbolTable
  bodies : List Body

/-- The context of the declarations inside a type. -/
def placeOf : Option String → Elaborating ContextId
  | some name => do
    let i ← typeNamed name
    return (← ask (·.typeInfo i)).context
  | none => return globalContext

/-- Declares a global variable. -/
def declareGlobal (g : NamedType) : Elaborating Unit := do
  let type? ← typeNamed? g.type?
  let _ ← scoping (Scoping.declareVariable globalContext g.name type? .global)

/-- Declares a type. -/
def declareType (f : TypeForm) : Elaborating Unit := do
  let c ← placeOf f.inside?
  let i ← scoping (Scoping.declareType c f.name)
  modify fun e => { e with types := e.types ++ [(f.key, i)] }

/-- Gives a type its supertypes and its members. -/
def completeType (f : TypeForm) : Elaborating Unit := do
  let i ← typeNamed f.key
  for s in f.supertypes do
    scoping (Scoping.addSupertype i (← typeNamed s))
  for m in f.members do
    let type? ← typeNamed? m.type?
    let _ ← scoping (Scoping.declareMember i m.name type?)

/-- Declares a function. -/
def declareFunction (f : FunctionForm) : Elaborating Unit := do
  let c ← placeOf f.inside?
  let parameters ← f.parameters.mapM fun p => return (p.name, ← typeNamed? p.type?)
  let type? ← typeNamed? f.returnType?
  let i ← scoping (Scoping.declareFunction c f.name parameters type?)
  modify fun e => { e with functions := e.functions ++ [(f.key, i)] }

/-- The body of a function, in a tree of its own. -/
def bodyOf (f : FunctionForm) : Elaborating (Option Body) := do
  match f.body? with
  | none => return none
  | some forms =>
    let i ← functionNamed f.key
    let c := (← ask (·.functionInfo i)).context
    modify fun e => { e with tree := .empty }
    let ns ← nodes c forms
    let root ← construct (.scope c ns)
    return some ⟨⟨i, (← get).tree, root⟩, f.key⟩

/-- Declares all symbols of a program and makes the trees of its bodies. -/
def loading (p : ProgramForm) : Elaborating (List Body) := do
  p.globals.forM declareGlobal
  p.types.forM declareType
  p.types.forM completeType
  p.functions.forM declareFunction
  p.functions.filterMapM bodyOf

/-- The symbols and the trees of a program. -/
def load (p : ProgramForm) : Except Problem Loaded :=
  match loading p Elaborated.start with
  | .ok bodies e => .ok ⟨e.symbols, bodies⟩
  | .error q _ => .error q

/-- The body of a function by its key, or the first body. -/
def Loaded.body? (l : Loaded) : Option String → Option Body
  | some key => l.bodies.find? (·.key == key)
  | none => l.bodies.head?

end Codegen.Surface
