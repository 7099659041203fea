import Codegen.Tree.Node

/-!
# Surface programs

A program as it is written: declarations and bodies that refer to types, variables and functions
by name. Elaboration turns it into symbols and trees.

* `Form`: statements and expressions;
* `TypeForm`, `FunctionForm`, `ProgramForm`: declarations.
-/

namespace Codegen.Surface

/-- The constructs that a form may name without the usual number of children. -/
inductive BareKind
  | operator (operator : Operator)
  | parenthesis | link | offset | ret
  | scope | ifBranch | elseIf | otherwise
  | loop (forever : Bool)

/-- The word for each bare construct. -/
def BareKind.words : List (String × BareKind) :=
  Operator.all.map (fun o => (o.symbol, operator o)) ++
    [("paren", parenthesis), ("link", link), ("offset", offset), ("return", ret),
      ("scope", scope), ("if", ifBranch), ("elif", elseIf), ("else", otherwise),
      ("loop", loop false), ("forever", loop true)]

/-- The construct that a bare form makes in a context. -/
def BareKind.kind (c : ContextId) : BareKind → NodeKind
  | operator o => .operator o
  | parenthesis => .parenthesis
  | link => .link
  | offset => .offset
  | ret => .ret
  | scope => .scope c
  | ifBranch => .ifBranch c
  | elseIf => .elseIf c
  | otherwise => .otherwise c
  | loop forever => .loop c forever

/-- A statement or an expression. -/
inductive Form
  /-- Declares a variable; it makes no node. -/
  | declare (name : String) (type : Option String)
  | number (value : Number) (format : Format)
  | reference (name : String)
  /-- The variable of a member of a type. -/
  | member (type name : String)
  | operator (operator : Operator) (left right : Form)
  | parenthesis (content : List Form)
  | call (function : String) (arguments : List Form)
  | link (object : Form) (type member : String)
  | offset (object index : Form)
  | scope (statements : List Form)
  | ifBranch (condition : Form) (body initialization : List Form)
  | elseIf (condition : Form) (body initialization : List Form)
  | otherwise (body : List Form)
  /-- A loop that tests its condition, behind its own initialization, before each round. -/
  | loop (initialization : List Form) (condition : Form) (action body before : List Form)
  | forever (body : List Form)
  | control (control : LoopControl)
  | ret
  | retValue (value : Form)
  | stackAddress (identity : String) (bytes : Nat) (type : String)
  | compiles (expressions : List Form)
  | typeReference (type : String)
  | name (name : String) (position? : Option Position)
  | unknownCall (function : String) (arguments : List Form) (position? : Option Position)
  | bare (kind : BareKind) (children : List Form)

instance : Inhabited Form := ⟨.ret⟩

/-! ## Declarations -/

/-- A global variable, or a member of a type, or a parameter. -/
structure NamedType where
  name : String
  type? : Option String

/-- The declaration of a type. -/
structure TypeForm where
  name : String
  /-- The name by which the program refers to the type. -/
  key : String
  /-- The type that the declaration is inside of. -/
  inside? : Option String
  supertypes : List String
  members : List NamedType

/-- The declaration of a function. -/
structure FunctionForm where
  name : String
  /-- The name by which the program refers to the function. -/
  key : String
  /-- The type that the declaration is inside of. -/
  inside? : Option String
  parameters : List NamedType
  returnType? : Option String
  body? : Option (List Form)

/-- A program. -/
structure ProgramForm where
  globals : List NamedType
  types : List TypeForm
  functions : List FunctionForm

end Codegen.Surface
