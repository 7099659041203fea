import Codegen.Listing.X64

/-!
# Assembly text for arm64

Operations have a destination of their own, immediates begin with `#`, and words that one move
cannot build take several lines. What the architecture has no operation for becomes a comment.

* `Operand.arm64Text`: operands;
* `immediateLines`: the lines that build a word in a register;
* `Operation.arm64Lines`: the lines of an operation.
-/

namespace Codegen

/-! ## Operands -/

/-- The name of a register. -/
def Register.arm64Text (r : Register) : String := Architecture.arm64.registerName r

/-- The number of zero bits below the lowest one bit of a word. -/
def Word.trailingZeros (w : Word) : Nat :=
  ((List.range 64).find? w.pattern.testBit).getD 64

/-- The text of an index with the shift that scales it. -/
def shiftedText (index : Register) (scale : Word) : String :=
  if 1 < scale.toInt then index.arm64Text ++ s!", lsl #{Word.trailingZeros scale}"
  else index.arm64Text

/-- The text of an address between brackets; the displacement of an indexed one is not written. -/
def addressText (base : String) (m : MemoryOperand) : String :=
  let d := m.displacement.toInt
  match m.index? with
  | some index => "[" ++ base ++ ", " ++ shiftedText index m.scale ++ "]"
  | none => if d = 0 then "[" ++ base ++ "]" else "[" ++ base ++ s!", #{d}]"

/-- The text of an address. A constant is named by its identifier alone. -/
def MemoryOperand.arm64Text (m : MemoryOperand) : String :=
  match m.base? with
  | some (.register r) => addressText r.arm64Text m
  | some (.constant identifier) => identifier
  | some (.slot k) => addressText k.describe m
  | none => addressText "xzr" m

/-- The text of an operand. -/
def Operand.arm64Text : Operand → String
  | register r => r.arm64Text
  | immediate w => s!"#{w.toInt}"
  | memory m => m.arm64Text
  | label name => name
  | modifier text => text

/-- The texts of operands behind each other. -/
def operandList (os : List Operand) : String := ", ".intercalate (os.map Operand.arm64Text)

/-! ## Moves and addresses -/

/-- The sixteen bits of a word from a bit on. -/
def Word.part (w : Word) (shift : Nat) : Nat := w.pattern >>> shift % 65536

/-- The lines that build a word in a register: one move if the word is small, else its four parts
by `movz` and `movk`, of which zero parts are left out behind the first one. -/
def immediateLines (destination : String) (w : Word) : List String :=
  if -65536 ≤ w.toInt ∧ w.toInt < 65536 then ["mov " ++ destination ++ s!", #{w.toInt}"]
  else
    ("movz " ++ destination ++ s!", #{Word.part w 0}") ::
      ([16, 32, 48].filter fun k => Word.part w k != 0).map fun k =>
        "movk " ++ destination ++ s!", #{Word.part w k}, lsl #{k}"

/-- The lines of a transfer. -/
def moveLines : List Operand → List String
  | [.register d, .immediate w] => immediateLines d.arm64Text w
  | [.register d, .register s] =>
    [(if d.isMedia || s.isMedia then "fmov " else "mov ") ++ d.arm64Text ++ ", " ++ s.arm64Text]
  | [.register d, .memory m] => ["ldr " ++ d.arm64Text ++ ", " ++ m.arm64Text]
  | [.memory m, .register s] => ["str " ++ s.arm64Text ++ ", " ++ m.arm64Text]
  | os => ["mov " ++ operandList os]

/-- The line of an address computation, which is a sum. -/
def addressLine : List Operand → String
  | [.register d, .memory m] =>
    match m.base?, m.index? with
    | some (.constant identifier), _ => "adr " ++ d.arm64Text ++ ", " ++ identifier
    | some (.register base), some index =>
      "add " ++ d.arm64Text ++ ", " ++ base.arm64Text ++ ", " ++ shiftedText index m.scale
    | some (.register base), none =>
      "add " ++ d.arm64Text ++ ", " ++ base.arm64Text ++ s!", #{m.displacement.toInt}"
    | _, _ => "add " ++ d.arm64Text ++ ", " ++ m.arm64Text
  | os => "add " ++ operandList os

/-! ## Operations -/

/-- The condition code of a conditional jump: signed words and the rest differ. -/
def Comparison.arm64Code (c : Comparison) (signed : Bool) : String :=
  match c, signed with
  | equal, _ => "eq"
  | notEqual, _ => "ne"
  | less, true => "lt"
  | lessOrEqual, true => "le"
  | greater, true => "gt"
  | greaterOrEqual, true => "ge"
  | less, false => "lo"
  | lessOrEqual, false => "ls"
  | greater, false => "hi"
  | greaterOrEqual, false => "hs"

/-- The line that saves or restores one or two registers. -/
def pairLine (one two suffix : String) (os : List Operand) : String :=
  (if os.length = 2 then two else one) ++ " " ++ operandList os ++ suffix

namespace Operation

/-- The lines of an operation. -/
def arm64Lines (o : Operation) : List String :=
  let os := operandList o.operands
  let float := if o.isMedia then "f" else ""
  match o.opcode with
  | .label => [o.target?.getD "" ++ ":"]
  | .move => moveLines o.operands
  | .loadAddress => [addressLine o.operands]
  | .add => [float ++ "add " ++ os]
  | .subtract => [float ++ "sub " ++ os]
  | .multiply => [float ++ "mul " ++ os]
  | .shiftLeft => ["lsl " ++ os]
  | .compare => [float ++ "cmp " ++ os]
  | .jump => ["b " ++ os]
  | .conditionalJump c signed => ["b." ++ c.arm64Code signed ++ " " ++ os]
  | .call => ["bl " ++ os]
  | .ret => ["ret"]
  | .convert => ["scvtf " ++ os]
  | .savePair => [pairLine "str" "stp" ", [sp, #-16]!" o.operands]
  | .restorePair => [pairLine "ldr" "ldp" ", [sp], #16" o.operands]
  | .push | .pop | .exchange => ["// " ++ o.opcode.describe ++ " " ++ os]

end Operation

end Codegen
