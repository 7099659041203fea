import Codegen.Fault
import Codegen.MachineCode.Layout

/-!
# Encoding of operations

The operations of a function become chunks of machine code, and its constants follow them. The
operands decide the instruction: words in general registers, decimals in media registers.

* `Encoder`: the chunks so far and the labels that were met;
* `Encoding.operation`: the chunk of an operation;
* `encode`: the machine code of a function with its constants.
-/

namespace Codegen.MachineCode

/-! ## Labels and chunks -/

/-- The code so far. -/
structure Encoder where
  chunks : Array Chunk
  /-- The labels in the order in which they were met. -/
  labels : List String
  placed : List (LabelNumber × Nat)
  /-- Does a label stand before the next chunk? -/
  waiting : Bool
  /-- The labels that the operations define. -/
  defined : List String

/-- A step of the encoding. -/
abbrev Encoding := StateT Encoder (Except EncodingError)

namespace Encoding

/-- The number of a label. -/
def labelNumber (name : String) : Encoding LabelNumber := fun e =>
  match e.labels.findIdx? (· == name) with
  | some i => .ok (i + 1, e)
  | none => .ok (e.labels.length + 1, { e with labels := e.labels ++ [name] })

/-- Adds a chunk. -/
def add (c : Chunk) : Encoding Unit :=
  modify fun e => { e with chunks := e.chunks.push c, waiting := false }

/-- Places a label before the next chunk. -/
def placeLabel (name : String) : Encoding Unit := do
  let k ← labelNumber name
  let e ← get
  if (e.placed.lookup k).isSome then throw (.assembly .labelReused)
  if e.waiting then throw (.assembly .labelsCollide)
  set { e with placed := (k, e.chunks.size) :: e.placed, waiting := true }

/-! ## Operands -/

/-- The number of a general register. -/
def general (r : Register) : Encoding Nat :=
  if r.bank = Register.generalBank ∧ r.id < 16 then return r.id else throw .invalidRegister

/-- The number of a media register. -/
def media (r : Register) : Encoding Nat :=
  if r.bank = Register.mediaBank ∧ r.id < 16 then return r.id else throw .invalidRegister

/-- The exponent of a scale. -/
def exponent (scale : Word) : Encoding Nat :=
  match [1, 2, 4, 8].findIdx? (· == scale) with
  | some k => return k
  | none => throw .invalidMemoryOperand

/-- The address of a memory operand. -/
def address (m : MemoryOperand) : Encoding Address := do
  if !Word.fitsIn m.displacement 32 then throw .invalidMemoryOperand
  let d := m.displacement.toInt
  match m.base?, m.index? with
  | some (.constant identifier), none =>
    if d = 0 then return .label (← labelNumber identifier) else throw .invalidMemoryOperand
  | some (.register base), none => return .based (← general base) d
  | some (.register base), some index =>
    let i ← general index
    let k ← exponent m.scale
    return .indexed (some (← general base)) i k d
  | none, some index =>
    let i ← general index
    return .indexed none i (← exponent m.scale) d
  | _, _ => throw .invalidMemoryOperand

/-- An immediate of at most 32 bits. -/
def immediate (w : Word) : Encoding Int :=
  if Word.fitsIn w 32 then return w.toInt else throw (.wideImmediate w)

/-! ## Instructions -/

/-- Adds an instruction on a register and an address. -/
def instruction (f : Form) (reg : Nat) (a : Address) : Encoding Unit := add (f.chunk reg a [])

/-- Adds an instruction with an immediate, for which there is a form with one byte. -/
def withImmediate (narrow wide : List UInt8) (reg : Nat) (a : Address) (i : Int) : Encoding Unit :=
  if fitsBytes 1 i then add ((Form.words narrow).chunk reg a (littleEndian 1 i))
  else add ((Form.words wide).chunk reg a (littleEndian 4 i))

/-- Adds an instruction of the family of eight that addition, subtraction and comparison belong
to, on a register and an immediate. -/
def familyImmediate (member : Nat) (d : Nat) (i : Int) : Encoding Unit :=
  if d = 0 then add (.fixed (0x48 :: .ofNat (8 * member + 5) :: littleEndian 4 i))
  else withImmediate [0x83] [0x81] member (.register d) i

/-- Adds an instruction of that family on two registers. -/
def familyRegister (member d s : Nat) : Encoding Unit :=
  instruction (.words [.ofNat (8 * member + 1)]) s (.register d)

/-- Adds an instruction of that family on a register and memory. -/
def familyMemory (member d : Nat) (a : Address) : Encoding Unit :=
  instruction (.words [.ofNat (8 * member + 3)]) d a

/-- A transfer. -/
def move (o : Operation) : Encoding Unit := do
  match o.operands with
  | [.register d, .register s] =>
    match d.isMedia, s.isMedia with
    | false, false =>
      let d ← general d
      instruction (.words [0x89]) (← general s) (.register d)
    | true, true =>
      let d ← media d
      instruction (.decimals 0x10) d (.register (← media s))
    | true, false =>
      let d ← media d
      instruction ⟨[0x66], true, [0x0f, 0x6e]⟩ d (.register (← general s))
    | false, true =>
      let d ← general d
      instruction ⟨[0x66], true, [0x0f, 0x7e]⟩ (← media s) (.register d)
  | [.register d, .immediate w] =>
    if d.isMedia then throw (.unencodable o)
    add (shortForm true 0xb8 (← general d) (littleEndian 8 w.toInt))
  | [.register d, .memory m] =>
    let a ← address m
    if d.isMedia then instruction (.decimals 0x10) (← media d) a
    else instruction (.words [0x8b]) (← general d) a
  | [.memory m, .register s] =>
    let a ← address m
    if s.isMedia then instruction (.decimals 0x11) (← media s) a
    else instruction (.words [0x89]) (← general s) a
  | [.memory m, .immediate w] =>
    let i ← immediate w
    add ((Form.words [0xc7]).chunk 0 (← address m) (littleEndian 4 i))
  | _ => throw (.unencodable o)

/-- The three arithmetic operations. -/
inductive Arithmetic
  | add | subtract | multiply
deriving DecidableEq

/-- The opcode of an arithmetic operation on decimals. -/
def Arithmetic.decimalOpcode : Arithmetic → UInt8
  | add => 0x58
  | subtract => 0x5c
  | multiply => 0x59

/-- The member of the family of eight. -/
def Arithmetic.member? : Arithmetic → Option Nat
  | add => some 0
  | subtract => some 5
  | multiply => none

/-- An arithmetic operation. A product with an immediate has a destination of its own. -/
def arithmetic (k : Arithmetic) (o : Operation) : Encoding Unit := do
  match o.twoOperands with
  | [.register d, .register s] =>
    if d.isMedia then
      let d ← media d
      instruction (.decimals k.decimalOpcode) d (.register (← media s))
    else
      let d ← general d
      let s ← general s
      match k.member? with
      | some i => familyRegister i d s
      | none => instruction (.words [0x0f, 0xaf]) d (.register s)
  | [.register d, .memory m] =>
    if d.isMedia then
      let d ← media d
      instruction (.decimals k.decimalOpcode) d (← address m)
    else
      let d ← general d
      let a ← address m
      match k.member? with
      | some i => familyMemory i d a
      | none => instruction (.words [0x0f, 0xaf]) d a
  | [.register d, .immediate w] =>
    let d ← general d
    let i ← immediate w
    match k.member? with
    | some j => familyImmediate j d i
    | none => withImmediate [0x6b] [0x69] d (.register d) i
  | [.register d, .register s, .immediate w] =>
    if k ≠ .multiply then throw (.unencodable o)
    let i ← immediate w
    let d ← general d
    withImmediate [0x6b] [0x69] d (.register (← general s)) i
  | [.register d, .memory m, .immediate w] =>
    if k ≠ .multiply then throw (.unencodable o)
    let i ← immediate w
    let a ← address m
    withImmediate [0x6b] [0x69] (← general d) a i
  | _ => throw (.unencodable o)

/-- A shift to the left. -/
def shift (o : Operation) : Encoding Unit := do
  match o.operands with
  | [.register d, .immediate w] =>
    if w.toInt < 0 ∨ 0x100000000 ≤ w.toInt then throw (.unencodable o)
    let d ← general d
    if w.toInt = 1 then instruction (.words [0xd1]) 4 (.register d)
    else if 256 ≤ w.toInt then throw (.assembly .immediateTooWide)
    else add ((Form.words [0xc1]).chunk 4 (.register d) (littleEndian 1 w.toInt))
  | _ => throw (.unencodable o)

/-- The form of a comparison of decimals. -/
def decimalComparison : Form := ⟨[0x66], false, [0x0f, 0x2e]⟩

/-- A comparison. -/
def compare (o : Operation) : Encoding Unit := do
  match o.operands with
  | [.register l, .register r] =>
    if l.isMedia then
      let l ← media l
      instruction decimalComparison l (.register (← media r))
    else
      let l ← general l
      familyRegister 7 l (← general r)
  | [.register l, .memory m] =>
    let a ← address m
    if l.isMedia then instruction decimalComparison (← media l) a
    else familyMemory 7 (← general l) a
  | [.register l, .immediate w] =>
    let i ← immediate w
    familyImmediate 7 (← general l) i
  | _ => throw (.unencodable o)

/-- An exchange; there is a short form for the first general register as the second operand. -/
def exchange (l r : Register) : Encoding Unit := do
  let l ← general l
  let r ← general r
  if r = 0 then add (shortForm true 0x90 l [])
  else instruction (.words [0x87]) r (.register l)

/-- The code of the condition of a jump. -/
def conditionCode (c : Comparison) (signed : Bool) : Nat :=
  match c, signed with
  | .equal, _ => 0x4
  | .notEqual, _ => 0x5
  | .less, true => 0xc
  | .lessOrEqual, true => 0xe
  | .greater, true => 0xf
  | .greaterOrEqual, true => 0xd
  | .less, false => 0x2
  | .lessOrEqual, false => 0x6
  | .greater, false => 0x7
  | .greaterOrEqual, false => 0x3

/-! ## Operations -/

/-- The chunk of an operation. A call has to be to a label of the function itself. -/
def operation (o : Operation) : Encoding Unit := do
  match o.opcode, o.operands with
  | .label, [.label name] => placeLabel name
  | .move, _ => move o
  | .loadAddress, [.register d, .memory m] =>
    let a ← address m
    instruction (.words [0x8d]) (← general d) a
  | .add, _ => arithmetic .add o
  | .subtract, _ => arithmetic .subtract o
  | .multiply, _ => arithmetic .multiply o
  | .shiftLeft, _ => shift o
  | .compare, _ => compare o
  | .jump, [.label name] => add (.jump none (← labelNumber name))
  | .conditionalJump c signed, [.label name] =>
    add (.jump (some (conditionCode c signed)) (← labelNumber name))
  | .call, [.label name] =>
    if (← get).defined.contains name then add (.call (← labelNumber name))
    else throw (.unencodable o)
  | .ret, [] => add (.fixed [0xc3])
  | .push, [.register r] => add (shortForm false 0x50 (← general r) [])
  | .push, [.memory m] => instruction ⟨[], false, [0xff]⟩ 6 (← address m)
  | .pop, [.register r] => add (shortForm false 0x58 (← general r) [])
  | .pop, [.memory m] => instruction ⟨[], false, [0x8f]⟩ 0 (← address m)
  | .exchange, [.register l, .register r] => exchange l r
  | .convert, [.register d, .register s] =>
    let d ← media d
    instruction ⟨[0xf2], true, [0x0f, 0x2a]⟩ d (.register (← general s))
  | _, _ => throw (.unencodable o)

/-- The chunk of a constant, which takes eight bytes whatever its size is. -/
def constant (c : DataConstant) : Encoding Unit := do
  placeLabel c.identifier
  add (.fixed (littleEndian 8 c.value.bits.toNat))

end Encoding

/-! ## Functions -/

/-- The labels that operations define. -/
def definedLabels (operations : List Operation) : List String :=
  (operations.filter (·.opcode == .label)).filterMap Operation.target?

/-- The code of chunks, if each label has code behind it and each instruction exists. -/
def assemble (e : Encoder) : Except EncodingError Code :=
  if e.waiting then .error (.assembly .labelWithoutCode)
  else if e.chunks.contains .impossible then .error (.assembly .invalidIndex)
  else .ok ⟨e.chunks, e.placed⟩

/-- The machine code of operations followed by constants. -/
def encode (operations : List Operation) (constants : List DataConstant) :
    Except EncodingError (List UInt8) := do
  let all : Encoding Unit := do
    operations.forM Encoding.operation
    constants.forM Encoding.constant
  let (_, e) ← all ⟨#[], [], [], false, definedLabels operations⟩
  return (← assemble e).bytes

end Codegen.MachineCode
