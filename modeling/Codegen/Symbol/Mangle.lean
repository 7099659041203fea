import Codegen.Symbol.Basic

/-!
# Mangles

A mangle is the symbol name of a context as it grows from the outermost context inwards. A type
that was spelled before is referred to by its place in the table of definitions; each level of
pointers to a known type is a definition of its own.

* `Mangle.addText`, `addName`: appends a text, or a name behind its length;
* `Mangle.add`: appends a reference to a type behind some levels of pointers;
* `Mangle.addParameters`, `addReturnType`: the signature of a function.
-/

namespace Codegen

/-- How a type is spelled in full. -/
inductive Spelling
  /-- The letter of a built-in type. -/
  | primitive (code : Char)
  /-- The names of the enclosing types, the outermost first, and of the type itself. -/
  | nested (names : List String)
deriving DecidableEq, Inhabited

/-- Is the type built in? -/
def Spelling.isPrimitive : Spelling → Bool
  | primitive _ => true
  | nested _ => false

/-- An entry of the table: a type behind some levels of pointers. -/
structure Definition where
  type : TypeId
  index : Nat
  pointers : Nat
deriving DecidableEq, Inhabited

/-- A reference to an entry of the table. -/
def Definition.text (d : Definition) : String :=
  match d.index with
  | 0 => "S_"
  | i + 1 => "S" ++ (String.ofList (Nat.toDigits 16 i)).toUpper ++ "_"

/-- A growing symbol name with its table of definitions. -/
structure Mangle where
  value : String
  definitions : List Definition
deriving DecidableEq, Inhabited

namespace Mangle

/-- The beginning of all symbol names. -/
def start : Mangle := ⟨"_V", []⟩

/-- A name behind the number of its bytes. -/
def nameText (name : String) : String := toString name.utf8ByteSize ++ name

/-- Marks of pointers, one for each level. -/
def pointerText (levels : Nat) : String := .ofList (.replicate levels 'P')

/-- The full spelling of a type. -/
def spellingText : Spelling → String
  | .primitive code => .singleton code
  | .nested names => "N" ++ String.join (names.map nameText) ++ "E"

/-- Appends a text. -/
def addText (m : Mangle) (text : String) : Mangle := { m with value := m.value ++ text }

/-- Appends a name behind its length. -/
def addName (m : Mangle) (name : String) : Mangle := m.addText (nameText name)

/-- Enters levels of pointers to a type into the table. -/
def define (m : Mangle) (type : TypeId) (levels : List Nat) : Mangle :=
  { m with
    definitions := m.definitions ++ levels.zipIdx.map fun (pointers, i) =>
      ⟨type, m.definitions.length + i, pointers⟩ }

/-- The last entry of a type with at most that many levels of pointers. -/
def known? (m : Mangle) (type : TypeId) (pointers : Nat) : Option Definition :=
  m.definitions.reverse.find? fun d => d.type == type && d.pointers ≤ pointers

/-- Spells a type that the table does not hold, and enters it at all levels up to the given one;
a built-in type has no entry of its own. -/
def addNew (m : Mangle) (type : TypeId) (s : Spelling) (pointers : Nat) : Mangle :=
  (m.define type ((List.range (pointers + 1)).drop (if s.isPrimitive then 1 else 0))).addText
    (pointerText pointers ++ spellingText s)

/-- Refers to an entry behind more levels of pointers, which become entries too. -/
def addKnown (m : Mangle) (d : Definition) (pointers : Nat) : Mangle :=
  let more := pointers - d.pointers
  (m.define d.type ((List.range more).map (d.pointers + · + 1))).addText
    (pointerText more ++ d.text)

/-- Appends a reference to a type behind some levels of pointers. -/
def add (m : Mangle) (type : TypeId) (s : Spelling) (pointers : Nat) : Mangle :=
  if pointers = 0 ∧ s.isPrimitive then m.addText (spellingText s)
  else
    match m.known? type pointers with
    | some d => m.addKnown d pointers
    | none => m.addNew type s pointers

/-- Appends a reference to a type as it is passed: built-in types by value, others by address. -/
def addPassed (m : Mangle) (type : TypeId) (s : Spelling) : Mangle :=
  m.add type s (if s.isPrimitive then 0 else 1)

/-- Appends the types of the parameters of a function. -/
def addParameters (m : Mangle) (types : List (TypeId × Spelling)) : Mangle :=
  if types.isEmpty then m.addText "v" else types.foldl (fun m (t, s) => m.addPassed t s) m

/-- Appends the type that a function returns. -/
def addReturnType (m : Mangle) (type : TypeId) (s : Spelling) : Mangle :=
  (m.addText "_r").addPassed type s

end Mangle

end Codegen
