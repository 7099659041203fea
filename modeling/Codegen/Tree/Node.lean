import Codegen.Operator
import Codegen.Symbol.Basic
import Codegen.Text

/-!
# Kinds of tree nodes

The closed set of constructs a syntax tree is made of, with the fixed order of their children.

* `NodeKind`: the constructs;
* `NodeKind.isResolvable`, `isConditional`, `isBranch`, `number?`, `operator?`: classification;
* `NodeKind.describe`: the text of a node inside messages.
-/

namespace Codegen

/-- The number of a node of a syntax tree. -/
abbrev NodeId := Nat

/-- A place in the source text. -/
structure Position where
  line : Nat
  column : Nat
deriving DecidableEq, Inhabited

/-- The text of a place. -/
def Position.text (p : Position) : String := s!"{p.line}:{p.column}"

/-- The statements that leave or restart a loop. -/
inductive LoopControl
  | stop | next
deriving DecidableEq, Inhabited

/-- The name of a loop control statement inside messages. -/
def LoopControl.name : LoopControl → String
  | stop => "Stop"
  | next => "Continue"

/-- The constructs of a syntax tree. -/
inductive NodeKind
  /-- A list of statements with a context of its own. -/
  | scope (context : ContextId)
  | number (value : Number) (format : Format)
  /-- A variable, read or assigned. -/
  | reference (target : VariableId)
  /-- A binary operator over its two operands. -/
  | operator (operator : Operator)
  | parenthesis
  /-- Access to a member: the object, then the variable of the member. -/
  | link
  /-- Access by index: the object, then the index. -/
  | offset
  /-- A call over its arguments. -/
  | call (function : FunctionId)
  /-- A branch: the scope of its condition, then its body. -/
  | ifBranch (context : ContextId)
  /-- A branch tried after the one before it: the scope of its condition, then its body. -/
  | elseIf (context : ContextId)
  /-- The last branch: its body alone. -/
  | otherwise (context : ContextId)
  /-- An endless loop holds its body. Any other holds its initialization, the scope of its
  condition, its action and its body. -/
  | loop (context : ContextId) (forever : Bool)
  | control (control : LoopControl)
  /-- A return, with the value if there is one. -/
  | ret
  /-- The address of bytes on the stack. -/
  | stackAddress (identity : String) (bytes : Nat) (type : TypeId)
  /-- A name that means a type. -/
  | typeReference (type : TypeId)
  /-- A test whether its children are well formed. -/
  | compiles
  /-- A name without a meaning yet. -/
  | unresolvedName (name : String)
  /-- A call of a function that is not known yet, over its arguments. -/
  | unresolvedCall (name : String)
deriving DecidableEq

namespace NodeKind

instance : Inhabited NodeKind := ⟨parenthesis⟩

/-- Is the meaning of the node still open? -/
def isResolvable : NodeKind → Bool
  | unresolvedName _ | unresolvedCall _ => true
  | _ => false

/-- Does the node test a condition once? -/
def isConditional : NodeKind → Bool
  | ifBranch _ | elseIf _ => true
  | _ => false

/-- Does the node continue a chain of branches? -/
def isAlternative : NodeKind → Bool
  | elseIf _ | otherwise _ => true
  | _ => false

/-- Is the node a branch of a chain? -/
def isBranch : NodeKind → Bool
  | ifBranch _ | elseIf _ | otherwise _ => true
  | _ => false

/-- Is the node a loop? -/
def isLoop : NodeKind → Bool
  | loop .. => true
  | _ => false

/-- Is the node a literal? -/
def isNumber : NodeKind → Bool
  | number .. => true
  | _ => false

/-- The operator of an operator node. -/
def operator? : NodeKind → Option Operator
  | operator o => some o
  | _ => none

/-- The value of a literal. -/
def number? : NodeKind → Option Number
  | number n _ => some n
  | _ => none

/-- The text of a node inside messages. -/
def describe : NodeKind → String
  | scope c => s!"Scope(ContextId({c}))"
  | number n f => "Number \x7b value: " ++ n.describe ++ ", format: " ++ f.tag ++ " \x7d"
  | reference v => s!"Variable(VariableId({v}))"
  | operator o => s!"Operator({o.name})"
  | parenthesis => "Parenthesis"
  | link => "Link"
  | offset => "Offset"
  | call f => s!"Call(FunctionId({f}))"
  | ifBranch c => s!"If(ContextId({c}))"
  | elseIf c => s!"ElseIf(ContextId({c}))"
  | otherwise c => s!"Else(ContextId({c}))"
  | loop c forever =>
    "Loop \x7b context: ContextId(" ++ toString c ++ "), forever: " ++
      (if forever then "true" else "false") ++ " \x7d"
  | control c => s!"LoopControl({c.name})"
  | ret => "Return"
  | stackAddress identity bytes type =>
    "StackAddress \x7b identity: " ++ Text.quote identity ++ s!", bytes: {bytes}, " ++
      s!"type_id: TypeId({type})" ++ " \x7d"
  | typeReference t => s!"TypeReference(TypeId({t}))"
  | compiles => "Compiles"
  | unresolvedName n => s!"UnresolvedIdentifier({Text.quote n})"
  | unresolvedCall n => s!"UnresolvedFunction({Text.quote n})"

end NodeKind

end Codegen
