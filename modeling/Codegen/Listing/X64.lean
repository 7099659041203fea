import Codegen.Operation
import Codegen.Target

/-!
# Assembly text for x64

Intel syntax: the destination first, memory behind `qword ptr` and between brackets. An address
computation takes the bare address. Arithmetic that names its destination twice is written with two
operands.

* `MemoryOperand.x64Text`, `Operand.x64Text`: operands;
* `Operation.mnemonic`: the name of an operation, which depends on the registers it works on;
* `Operation.x64Line`: one line.
-/

namespace Codegen

/-! ## Operands -/

/-- The text of the base of an address. -/
def Base.x64Text : Base → String
  | register r => Architecture.x64.registerName r
  | constant identifier => "rip + " ++ identifier
  | slot k => k.describe

/-- The text of an index with its scale. -/
def scaledText (index : Register) (scale : Word) : String :=
  let name := Architecture.x64.registerName index
  if scale = 1 then name else name ++ s!"*{scale.toInt}"

/-- The text of an address. -/
def MemoryOperand.x64Text (m : MemoryOperand) : String :=
  let parts := (m.base?.map Base.x64Text).toList ++ (m.index?.map (scaledText · m.scale)).toList
  let text := " + ".intercalate parts
  let d := m.displacement.toInt
  let inside :=
    if text.isEmpty then toString d
    else if d = 0 then text
    else if d < 0 then text ++ s!" - {d.natAbs}"
    else text ++ s!" + {d}"
  "[" ++ inside ++ "]"

/-- The text of an operand; memory may be written as a bare address. -/
def Operand.x64Text (bare : Bool) : Operand → String
  | register r => Architecture.x64.registerName r
  | immediate w => toString w.toInt
  | memory m => (if bare then "" else "qword ptr ") ++ m.x64Text
  | label name => name
  | modifier text => text

/-! ## Operations -/

/-- The end of the mnemonic of a conditional jump: signed words and the rest differ. -/
def Comparison.x64Suffix (c : Comparison) (signed : Bool) : String :=
  match c, signed with
  | equal, _ => "e"
  | notEqual, _ => "ne"
  | less, true => "l"
  | lessOrEqual, true => "le"
  | greater, true => "g"
  | greaterOrEqual, true => "ge"
  | less, false => "b"
  | lessOrEqual, false => "be"
  | greater, false => "a"
  | greaterOrEqual, false => "ae"

namespace Operation

/-- The mnemonic of a transfer. -/
def moveMnemonic (o : Operation) : String :=
  let first? := o.operands[0]?
  let second? := o.operands[1]?
  let registers := (first?.bind Operand.register?).isSome && (second?.bind Operand.register?).isSome
  match first?.any (·.isMedia), second?.any (·.isMedia) with
  | true, true => "movsd"
  | false, false => "mov"
  | _, _ => if registers then "movq" else "movsd"

/-- The mnemonic of an operation; labels and operations of the other architecture have none. -/
def mnemonic (o : Operation) : String :=
  match o.opcode with
  | .move => o.moveMnemonic
  | .loadAddress => "lea"
  | .add => if o.isMedia then "addsd" else "add"
  | .subtract => if o.isMedia then "subsd" else "sub"
  | .multiply => if o.isMedia then "mulsd" else "imul"
  | .shiftLeft => "shl"
  | .compare => if o.isMedia then "ucomisd" else "cmp"
  | .jump => "jmp"
  | .conditionalJump c signed => "j" ++ c.x64Suffix signed
  | .call => "call"
  | .ret => "ret"
  | .push => "push"
  | .pop => "pop"
  | .exchange => "xchg"
  | .convert => "cvtsi2sd"
  | .label | .savePair | .restorePair => ""

/-- The operands as they are written. -/
def x64Operands (o : Operation) : List Operand :=
  match o.opcode with
  | .add | .subtract => o.twoOperands
  | .multiply => if o.isMedia then o.twoOperands else o.operands
  | _ => o.operands

/-- The line of an operation. -/
def x64Line (o : Operation) : String :=
  if o.opcode = .label then o.target?.getD "" ++ ":"
  else
    let operands := o.x64Operands.map (Operand.x64Text (o.opcode == .loadAddress))
    if operands.isEmpty then o.mnemonic else o.mnemonic ++ " " ++ ", ".intercalate operands

end Operation

end Codegen
