import Codegen.Operator
import Codegen.Register.Set
import Codegen.Symbol.Basic
import Codegen.Text

/-!
# Machine operations

What the build of a function produces and what is printed and encoded: an operation code with
operands. Stack slots stay symbolic until the frame is laid out.

* `Opcode`, `Operand`, `MemoryOperand`, `Operation`;
* `DataConstant`: a constant of the data section;
* `Operation.target?`, `Operation.registers`: the label and the registers of an operation;
* `describe`: the texts inside messages.
-/

namespace Codegen

/-! ## Operands -/

/-- A stack slot before the frame is laid out. -/
inductive SlotKey
  | ofVariable (owner : VariableId)
  | temporary (identity : Nat)
  | inline (identity : String)
deriving DecidableEq, Inhabited

/-- The text of a slot inside messages. -/
def SlotKey.describe : SlotKey → String
  | ofVariable v => s!"Variable(VariableId({v}))"
  | temporary k => s!"Temporary({k})"
  | inline identity => s!"Inline({Text.quote identity})"

/-- What a memory address starts from. -/
inductive Base
  | register (register : Register)
  | slot (key : SlotKey)
  /-- A constant of the data section, relative to the program counter. -/
  | constant (identifier : String)
deriving DecidableEq, Inhabited

/-- The text of a base inside messages. -/
def Base.describe : Base → String
  | register r => s!"Register({r.describe})"
  | slot k => s!"Slot({k.describe})"
  | constant identifier => s!"ConstantData({Text.quote identifier})"

/-- The memory at `base + index * scale + displacement`. -/
structure MemoryOperand where
  base? : Option Base
  index? : Option Register
  scale : Word
  displacement : Word
deriving DecidableEq, Inhabited

namespace MemoryOperand

/-- The memory at a displacement from a base. -/
def displaced (base : Base) (displacement : Word) : MemoryOperand :=
  ⟨some base, none, 1, displacement⟩

/-- The memory at a base plus a scaled index and a displacement. -/
def indexed (base : Base) (index : Register) (scale displacement : Word) : MemoryOperand :=
  ⟨some base, some index, scale, displacement⟩

/-- The memory at a scaled index. -/
def scaled (index : Register) (scale : Word) : MemoryOperand := ⟨none, some index, scale, 0⟩

/-- The registers of the address. -/
def registers (m : MemoryOperand) : List Register :=
  (match m.base? with
    | some (.register r) => [r]
    | _ => []) ++ m.index?.toList

/-- The text of a memory operand inside messages. -/
def describe (m : MemoryOperand) : String :=
  let optional (s : Option String) : String := s.elim "None" fun t => "Some(" ++ t ++ ")"
  "MemoryOperand \x7b base: " ++ optional (m.base?.map Base.describe) ++ ", index: " ++
    optional (m.index?.map Register.describe) ++
    s!", scale: {m.scale.toInt}, displacement: {m.displacement.toInt}" ++ " \x7d"

end MemoryOperand

/-- An operand of a machine operation. -/
inductive Operand
  | register (register : Register)
  | immediate (value : Word)
  | memory (memory : MemoryOperand)
  | label (name : String)
  | modifier (text : String)
deriving DecidableEq, Inhabited

namespace Operand

/-- The register that the operand is. -/
def register? : Operand → Option Register
  | register r => some r
  | _ => none

/-- Is the operand a media register? -/
def isMedia : Operand → Bool
  | register r => r.isMedia
  | _ => false

/-- The registers that the operand reads or writes, those of its address included. -/
def registers : Operand → List Register
  | register r => [r]
  | memory m => m.registers
  | immediate _ | label _ | modifier _ => []

/-- The text of an operand inside messages. -/
def describe : Operand → String
  | register r => s!"Register({r.describe})"
  | immediate w => s!"Immediate({w.toInt})"
  | memory m => s!"Memory({m.describe})"
  | label n => s!"Label({Text.quote n})"
  | modifier t => s!"Modifier({Text.quote t})"

end Operand

/-! ## Operations -/

/-- What an operation does. -/
inductive Opcode
  /-- A transfer between registers, memory and immediates. -/
  | move
  | loadAddress
  | add
  | subtract
  | multiply
  | shiftLeft
  | compare
  | jump
  | conditionalJump (condition : Comparison) (signed : Bool)
  | label
  | call
  | ret
  | push
  | pop
  | exchange
  /-- The conversion of an integer to a decimal. -/
  | convert
  /-- A store of one or two registers below the stack pointer. -/
  | savePair
  /-- A load of one or two registers from the stack pointer upwards. -/
  | restorePair
deriving DecidableEq, Inhabited

/-- The text of an operation code inside messages. -/
def Opcode.describe : Opcode → String
  | move => "Move"
  | loadAddress => "LoadAddress"
  | add => "Add"
  | subtract => "Subtract"
  | multiply => "Multiply"
  | shiftLeft => "ShiftLeft"
  | compare => "Compare"
  | jump => "Jump"
  | conditionalJump c signed =>
    "ConditionalJump \x7b condition: " ++ c.name ++ ", signed: " ++
      (if signed then "true" else "false") ++ " \x7d"
  | label => "Label"
  | call => "Call"
  | ret => "Return"
  | push => "Push"
  | pop => "Pop"
  | exchange => "Exchange"
  | convert => "ConvertToDecimal"
  | savePair => "SavePair"
  | restorePair => "RestorePair"

/-- The operation codes that a word alone stands for. -/
def Opcode.words : List (String × Opcode) :=
  [("move", move), ("lea", loadAddress), ("add", add), ("sub", subtract), ("mul", multiply),
    ("shl", shiftLeft), ("cmp", compare), ("jmp", jump), ("label", label), ("call", call),
    ("ret", ret), ("push", push), ("pop", pop), ("xchg", exchange), ("cvt", convert),
    ("save", savePair), ("restore", restorePair)]

/-- A constant of the data section. -/
structure DataConstant where
  identifier : String
  value : Number
  size : Size
deriving DecidableEq, Inhabited

/-- A machine operation on 64-bit operands. -/
structure Operation where
  opcode : Opcode
  operands : List Operand
deriving DecidableEq, Inhabited

namespace Operation

/-- The definition of a label. -/
def label (name : String) : Operation := ⟨.label, [.label name]⟩

/-- The first label among the operands. -/
def target? (o : Operation) : Option String :=
  o.operands.findSome? fun
    | .label name => some name
    | _ => none

/-- The registers of all operands. -/
def registers (o : Operation) : List Register := o.operands.flatMap Operand.registers

/-- Is the first operand a media register? -/
def isMedia (o : Operation) : Bool := o.operands.head?.any (·.isMedia)

/-- The operands, without a destination that is named twice. -/
def twoOperands (o : Operation) : List Operand :=
  match o.operands with
  | [d, first, s] => if d = first then [d, s] else o.operands
  | _ => o.operands

/-- The text of an operation inside messages. -/
def describe (o : Operation) : String :=
  o.opcode.describe ++ " [" ++ ", ".intercalate (o.operands.map Operand.describe) ++ "]"

end Operation

end Codegen
