import Codegen.Format

/-!
# Symbols

Types, variables, functions and labels as a program declares them. Each is known by the number of
its declaration; the built-in types come first.

* `TypeInfo`, `VariableInfo`, `FunctionInfo`: what is known of a symbol;
* `Primitive`: the built-in types and their numbers.
-/

namespace Codegen

/-- The number of a context. -/
abbrev ContextId := Nat

/-- The number of a type. -/
abbrev TypeId := Nat

/-- The number of a function. -/
abbrev FunctionId := Nat

/-- The number of a variable. -/
abbrev VariableId := Nat

/-- The number of a source label. -/
abbrev LabelId := Nat

/-- The context that encloses all others. -/
def globalContext : ContextId := 0

/-! ## Types -/

/-- What a type is at the machine level. -/
inductive TypeKind
  /-- An integer or a decimal of that format. -/
  | number (format : Format)
  | bool
  /-- A raw address. -/
  | link
  /-- Declared by the program. -/
  | user
deriving DecidableEq, Inhabited

/-- A declared type. -/
structure TypeInfo where
  name : String
  kind : TypeKind
  /-- The context of the members. -/
  context : ContextId
  /-- The direct supertypes in the order of their declaration. -/
  supertypes : List TypeId
deriving Inhabited

namespace TypeInfo

/-- Is the type built in? -/
def isPrimitive (t : TypeInfo) : Bool := t.kind != .user

/-- Is the type a number type? -/
def isNumber (t : TypeInfo) : Bool :=
  match t.kind with
  | .number _ => true
  | _ => false

/-- The machine format of the values of the type. -/
def format (t : TypeInfo) : Format :=
  match t.kind with
  | .number f => f
  | .bool => .u8
  | .link | .user => .u64

/-- The letter of a built-in type in symbol names. -/
def code? (t : TypeInfo) : Option Char :=
  match t.kind with
  | .number .i8 => some 'a'
  | .number .u8 => some 'h'
  | .number .i16 => some 's'
  | .number .u16 => some 't'
  | .number .i32 => some 'i'
  | .number .u32 => some 'j'
  | .number .i64 => some 'x'
  | .number .u64 => some 'y'
  | .number .decimal => some 'd'
  | .bool => some 'b'
  | .link => some 'l'
  | .user => none

end TypeInfo

namespace Primitive

/-- The built-in types in the order of their numbers. -/
def all : List (String × TypeKind) :=
  [("i8", .number .i8), ("u8", .number .u8), ("i16", .number .i16), ("u16", .number .u16),
    ("i32", .number .i32), ("u32", .number .u32), ("i64", .number .i64), ("u64", .number .u64),
    ("decimal", .number .decimal), ("bool", .bool), ("link", .link)]

/-- The number of the built-in type of a format. -/
def ofFormat : Format → TypeId
  | .i8 => 0
  | .u8 => 1
  | .i16 => 2
  | .u16 => 3
  | .i32 => 4
  | .u32 => 5
  | .i64 => 6
  | .u64 => 7
  | .decimal => 8

/-- The number of the type of truth values. -/
def bool : TypeId := 9

/-- The number of the type of raw addresses. -/
def link : TypeId := 10

end Primitive

/-! ## Variables, functions and labels -/

/-- The role of a variable. -/
inductive VariableCategory
  /-- Declared inside a body. -/
  | inner
  | parameter
  /-- A member of a type, at that offset in bytes. -/
  | member (offset : Nat)
  | global
deriving DecidableEq, Inhabited

/-- The text of a role; that of a member tells its offset. -/
def VariableCategory.text : VariableCategory → String
  | inner => "local"
  | parameter => "parameter"
  | member offset => s!"member {offset}"
  | global => "global"

/-- A declared variable. -/
structure VariableInfo where
  name : String
  type? : Option TypeId
  /-- The declared type, adopted while the type is missing. -/
  hint? : Option TypeId
  category : VariableCategory
  context : ContextId
deriving Inhabited

namespace VariableInfo

/-- Is the type still missing? -/
def isUnresolved (v : VariableInfo) : Bool := v.type?.isNone

/-- Is the variable a member of a type? -/
def isMember (v : VariableInfo) : Bool :=
  match v.category with
  | .member _ => true
  | _ => false

end VariableInfo

/-- A declared function. -/
structure FunctionInfo where
  name : String
  /-- The context of the parameters and of the body. -/
  context : ContextId
  /-- The context of the declaration. -/
  parent : ContextId
  parameters : List VariableId
  returnType? : Option TypeId
deriving Inhabited

/-- The kinds of symbols that a context declares. -/
inductive SymbolKind
  | typeName | variableName | functionName | labelName
deriving DecidableEq

/-- The name of a kind of symbols in messages. -/
def SymbolKind.name : SymbolKind → String
  | typeName => "Type"
  | variableName => "Variable"
  | functionName => "Function"
  | labelName => "Label"

end Codegen
