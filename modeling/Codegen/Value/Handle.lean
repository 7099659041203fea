import Codegen.Lifetime
import Codegen.Number
import Codegen.Register.File
import Codegen.Symbol.Basic
import Codegen.Text

/-!
# Handles

A handle tells where a value is at one point of the generated code. A value moves by getting a
new handle; handles themselves never change.

* `Handle`: the places;
* `Handle.inner`: the values that an address is computed from;
* `Handle.isSlot`, `isIndirect`, `isLocation`: classification;
* `Handle.text`, `Handle.caption`: the texts of a handle.
-/

namespace Codegen

/-- The place of a value. -/
inductive Handle
  | none
  | constant (value : Number)
  | register (register : Register)
  /-- The memory at a start address plus an offset. -/
  | memory (start : ValueId) (offset : Word)
  /-- The memory at a start address plus a multiple of an offset. -/
  | scaledMemory (start offset : ValueId) (stride : Word)
  /-- The sum of a scaled value, a value and a constant. -/
  | expression (multiplicand : ValueId) (multiplier : Word) (addition : Option ValueId)
      (constant : Word)
  /-- A decoration of another operand, such as a shift. -/
  | modifier (text : String)
  /-- The address of bytes on the stack. -/
  | inline (identity : String) (bytes : Nat)
  /-- The stack slot of a variable. -/
  | variableSlot (owner : VariableId)
  /-- A stack slot for a value that was spilled. -/
  | temporarySlot (identity : Nat) (size : Size)
  /-- A constant in the data section. -/
  | constantData (value : Number) (identifier : String)
deriving DecidableEq

/-- The text of a value's number. -/
def ValueId.text (v : ValueId) : String := s!"%{v}"

namespace Handle

instance : Inhabited Handle := ⟨none⟩

/-- The values that the handle refers to. -/
def inner : Handle → List ValueId
  | memory start _ => [start]
  | scaledMemory start offset _ => [start, offset]
  | expression multiplicand _ addition _ => multiplicand :: addition.toList
  | _ => []

/-- Is no place known? -/
def isNone : Handle → Bool
  | none => true
  | _ => false

/-- Is the value a constant? -/
def isConstant : Handle → Bool
  | constant _ => true
  | _ => false

/-- The register that holds the value. -/
def register? : Handle → Option Register
  | register r => some r
  | _ => .none

/-- The constant that the value is. -/
def constant? : Handle → Option Number
  | constant n => some n
  | _ => .none

/-- Is the place a stack slot of one value? -/
def isSlot : Handle → Bool
  | variableSlot _ | temporarySlot .. => true
  | _ => false

/-- Is the place memory at a computed address? -/
def isIndirect : Handle → Bool
  | memory .. | scaledMemory .. => true
  | _ => false

/-- Can the place receive a value? -/
def isLocation (h : Handle) : Bool := h.register?.isSome || h.isSlot || h.isIndirect

/-- The text of a handle. -/
def text : Handle → String
  | none => "none"
  | constant n => n.text
  | register r => s!"r{r.bank}:{r.id}"
  | memory start offset => s!"[{start.text} + {offset.toInt}]"
  | scaledMemory start offset stride => s!"[{start.text} + {offset.text} * {stride.toInt}]"
  | expression multiplicand multiplier addition rest =>
    s!"{multiplicand.text} * {multiplier.toInt}" ++
      (match addition with
        | some a => s!" + {a.text}"
        | .none => "") ++ s!" + {rest.toInt}"
  | modifier t => t
  | inline identity bytes => s!"inline {identity} ({bytes} bytes)"
  | variableSlot v => s!"variable {v}"
  | temporarySlot identity size => s!"temporary {identity} ({size.name})"
  | constantData _ identifier => identifier

/-- The text of a handle, with a decimal constant shown by its bits. -/
def caption : Handle → String
  | constant (.decimal x) => "dec " ++ Text.hexPadded 16 x.bits.toNat
  | h => h.text

end Handle

end Codegen
