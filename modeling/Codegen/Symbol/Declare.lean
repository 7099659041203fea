import Codegen.Symbol.Table

/-!
# Declarations

Declarations change the symbol table. A context declares a name once as a type, once as a
variable and once as a label; a function name may be declared again with other parameter types.
A declaration that fails leaves what it did before.

* `Scoping`: changes of the table;
* `declareType`, `declareVariable`, `declareMember`, `declareFunction`, `declareLabel`.
-/

namespace Codegen

/-- A change of the symbol table that may fail. -/
abbrev Scoping := EStateM Fault SymbolTable

namespace Scoping

/-! ## Access -/

/-- Asks the table. -/
def ask {α : Type} (f : SymbolTable → Except Fault α) : Scoping α := fun t =>
  match f t with
  | .ok a => .ok a t
  | .error e => .error e t

/-- Changes a context. -/
def modifyContext (c : ContextId) (f : Context → Context) : Scoping Unit := do
  let _ ← ask (·.context c)
  modify fun t => { t with contexts := t.contexts.modify c f }

/-- Changes a variable. -/
def modifyVariable (v : VariableId) (f : VariableInfo → VariableInfo) : Scoping Unit := do
  let _ ← ask (·.variableInfo v)
  modify fun t => { t with vars := t.vars.modify v f }

/-- Changes a type. -/
def modifyType (i : TypeId) (f : TypeInfo → TypeInfo) : Scoping Unit := do
  let _ ← ask (·.typeInfo i)
  modify fun t => { t with types := t.types.modify i f }

/-! ## The forest of contexts -/

/-- A context and all below it, the pending ones first, at most that many. -/
def below (t : SymbolTable) : Nat → List ContextId → List ContextId
  | _, [] => []
  | 0, _ => []
  | fuel + 1, c :: pending =>
    c :: below t fuel ((t.contexts[c]?.elim [] (·.children)).reverse ++ pending)

/-- A context and all below it; of two siblings the later one comes first. -/
def subtree (t : SymbolTable) (c : ContextId) : List ContextId :=
  below t (t.contexts.size + 1) [c]

/-- Forgets the symbol names of a context and of all below it. -/
def forgetMangles (c : ContextId) : Scoping Unit := do
  let _ ← ask (·.context c)
  modify fun t =>
    { t with
      contexts := (subtree t c).foldl
        (fun cs c => cs.modify c ({ · with mangle? := none })) t.contexts }

/-- Gives the variables without a type, in a context and all below it, the types they hint at. -/
def adoptHints (c : ContextId) : Scoping Unit := do
  let _ ← ask (·.context c)
  modify fun t =>
    let vars := (subtree t c).flatMap fun c => t.contexts[c]?.elim [] (·.variableIds)
    { t with
      vars := vars.foldl
        (fun vs v => vs.modify v fun i => { i with type? := i.type?.orElse fun _ => i.hint? })
        t.vars }

/-- Makes a context the child of another one, taking it from its parent. -/
def link (child parent : ContextId) : Scoping Unit := do
  let info ← ask (·.context child)
  if let some previous := info.parent? then
    modifyContext previous fun c => { c with children := c.children.filter (· != child) }
  modifyContext child ({ · with parent? := some parent })
  modifyContext parent fun c =>
    { c with
      children := if c.children.contains child then c.children else c.children ++ [child] }
  forgetMangles child
  adoptHints child

/-- Takes a context from its parent. -/
def detach (c : ContextId) : Scoping Unit := do
  let info ← ask (·.context c)
  if let some parent := info.parent? then
    modifyContext parent fun p => { p with children := p.children.filter (· != c) }
  modifyContext c ({ · with parent? := none })
  forgetMangles c

/-- Makes a context below another one. -/
def createContext (kind : ContextKind) (parent : ContextId) : Scoping ContextId := do
  let info ← ask (·.context parent)
  modifyContext parent fun c => { c with created := c.created + 1 }
  let id := (← get).contexts.size
  modify fun t =>
    { t with contexts := t.contexts.push (.start kind s!"{info.identity}.{info.created}") }
  link id parent
  return id

/-- Makes a scope below a context. -/
def createScope (parent : ContextId) : Scoping ContextId := createContext .scope parent

/-! ## Declarations -/

/-- Refuses a name that is declared already. -/
def refuse {α : Type} (kind : SymbolKind) (name : String) : Scoping α :=
  throw (.report (.declared kind name))

/-- Declares a type with a context for its members. -/
def declareType (c : ContextId) (name : String) : Scoping TypeId := do
  if ((← ask (·.context c)).types.lookup name).isSome then refuse .typeName name
  let id := (← get).types.size
  let members ← createContext (.ofType id) c
  modify fun t => { t with types := t.types.push ⟨name, .user, members, []⟩ }
  modifyContext c fun k => { k with types := k.types.put name id }
  return id

/-- Makes a type a direct supertype of another one. -/
def addSupertype (i supertype : TypeId) : Scoping Unit :=
  modifyType i fun t =>
    { t with
      supertypes :=
        if t.supertypes.contains supertype then t.supertypes else t.supertypes ++ [supertype] }

/-- Declares a variable. -/
def declareVariable (c : ContextId) (name : String) (type? : Option TypeId)
    (category : VariableCategory) : Scoping VariableId := do
  if ((← ask (·.context c)).vars.lookup name).isSome then refuse .variableName name
  let id := (← get).vars.size
  modify fun t => { t with vars := t.vars.push ⟨name, type?, none, category, c⟩ }
  modifyContext c fun k => { k with vars := k.vars.put name id }
  return id

/-- Declares a variable of a body. -/
def declareLocal (c : ContextId) (name : String) (type? : Option TypeId) : Scoping VariableId :=
  declareVariable c name type? .inner

/-- The number of bytes of a member. -/
def memberSize : Nat := 8

/-- Declares a member of a type behind the members that it has. -/
def declareMember (i : TypeId) (name : String) (type? : Option TypeId) : Scoping VariableId := do
  let c := (← ask (·.typeInfo i)).context
  let offset := (← ask (·.context c)).vars.length * memberSize
  declareVariable c name type? (.member offset)

/-- The parameter types of a function. -/
def signature (f : FunctionId) : Scoping (List (Option TypeId)) := do
  (← ask (·.functionInfo f)).parameters.mapM fun v => return (← ask (·.variableInfo v)).type?

/-- Declares a function. The name may be declared already, but not with these parameter types. -/
def declareFunction (c : ContextId) (name : String) (parameters : List (String × Option TypeId))
    (returnType? : Option TypeId) : Scoping FunctionId := do
  let overloads := ((← ask (·.context c)).functions.lookup name).getD []
  let signatures ← overloads.mapM signature
  if signatures.contains (parameters.map (·.2)) then refuse .functionName name
  let id := (← get).functions.size
  let inner ← createContext (.ofFunction id) c
  let vars ← parameters.mapM fun (n, t) => declareVariable inner n t .parameter
  modify fun t => { t with functions := t.functions.push ⟨name, inner, c, vars, returnType?⟩ }
  modifyContext c fun k =>
    { k with functions := k.functions.put name ((k.functions.lookup name).getD [] ++ [id]) }
  return id

/-- Declares a label. -/
def declareLabel (c : ContextId) (name : String) : Scoping LabelId := do
  if ((← ask (·.context c)).labels.lookup name).isSome then refuse .labelName name
  let id := (← get).labels.size
  modify fun t => { t with labels := t.labels.push name }
  modifyContext c fun k => { k with labels := k.labels.put name id }
  return id

/-! ## Merging -/

/-- Moves all that a context declares into another one, whose own declarations win, and takes the
emptied context from its parent. -/
def merge (c other : ContextId) : Scoping Unit := do
  let source ← ask (·.context other)
  for (name, i) in source.types do
    modifyContext c fun k => { k with types := k.types.adopt name i }
    let members := (← ask (·.typeInfo i)).context
    if members ≠ globalContext ∧ (← ask (·.context members)).parent? = some other then
      modifyContext members ({ · with parent? := some c })
  for (name, overloads) in source.functions do
    modify fun t =>
      { t with
        functions := overloads.foldl (fun fs f => fs.modify f ({ · with parent := c }))
          t.functions }
    modifyContext c fun k => { k with functions := k.functions.adopt name overloads }
  for (name, v) in source.vars do
    modifyContext c fun k => { k with vars := k.vars.adopt name v }
    modifyVariable v ({ · with context := c })
  for (name, l) in source.labels do
    modifyContext c fun k => { k with labels := k.labels.adopt name l }
  for child in source.children do
    modifyContext child ({ · with parent? := some c })
    modifyContext c fun k =>
      { k with
        children := if k.children.contains child then k.children else k.children ++ [child] }
  modifyContext other ({ · with children := [] })
  forgetMangles c
  adoptHints c
  detach other

end Scoping

end Codegen
