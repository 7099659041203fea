import Codegen.Placement.Transfer

/-!
# Selection of arithmetic

Arithmetic on x64 overwrites its first operand, which is put into the register of the result first,
unless an address computation gives the result without touching it. On arm64 an operation has a
destination of its own. Multiplication by a constant becomes a shift or an address computation where
the constant allows it.

* `Generating.buildAdditive`, `buildMultiplication`: the operations;
* `Generating.redirect`: lets the previous instruction write another register.
-/

namespace Codegen

/-- The largest shift that an address can scale its index by. -/
def largestAddressShift : Nat := 3

/-- A power of two as a word. -/
def Word.powerOfTwo (k : Nat) : Word := .ofNat (1 <<< k)

/-- The exponent of a word that is a power of two. -/
def Word.exponent? (w : Word) : Option Nat :=
  let k := w.toInt.toNat.log2
  if 0 < w.toInt ∧ 1 <<< k = w.toInt.toNat then some k else none

namespace Generating

/-! ## Forms -/

/-- An operation with a destination of its own. -/
def emitThree (opcode : Opcode) (d l : Register) (r : Operand) : Generating Unit :=
  emit opcode [.register d, .register l, r]

/-- An operation that overwrites its first operand. -/
def emitTwo (opcode : Opcode) (d : Register) (s : Operand) : Generating Unit :=
  emit opcode [.register d, s]

/-- The computation of an address. -/
def emitAddress (d : Register) (m : MemoryOperand) : Generating Unit :=
  emit .loadAddress [.register d, .memory m]

/-- An operation that overwrites its first operand, which is copied for it. -/
def buildOverwriting (opcode : Opcode) (first result : ValueId) (source : Operand) :
    Generating Unit := do
  emitTwo opcode (← loadForWrite first result) source

/-- An operation on decimals. -/
def buildDecimal (opcode : Opcode) (first second result : ValueId) : Generating Unit := do
  if (← get).isX64 then
    let source ←
      if (← formatOf second).isDecimal then operand second .any
      else Operand.register <$> loadAs second .decimal
    buildOverwriting opcode first result source
  else
    let left ← loadAs first .decimal
    let right ← loadAs second .decimal
    emitThree opcode (← reusableDestination first result) left (.register right)

/-! ## Sums -/

/-- Can a sum be computed as an address? Its first operand stays in its register, and the second
is a register or a constant that fits. -/
def isAddressSum (first second : ValueId) : Generating Bool := do
  match ← handleOf first with
  | .register _ =>
    if ← isExpiring first then return false
    match ← handleOf second with
    | .register r => return !r.isMedia
    | .constant (.integer w) => return Word.fitsIn w 32
    | _ => return false
  | _ => return false

/-- A sum computed as an address. -/
def buildAddressSum (first second result : ValueId) : Generating Unit := do
  let base ← load first
  let m ←
    match ← operand second .registerOrImmediate with
    | .register index => pure (MemoryOperand.indexed (.register base) index 1 0)
    | .immediate w => pure (MemoryOperand.displaced (.register base) w)
    | other => refuse (.notAddress other)
  emitAddress (← allocateResult result) m

/-- A sum or a difference. -/
def buildAdditive (opcode : Opcode) (first second result : ValueId) : Generating Unit := do
  if (← formatOf result).isDecimal then buildDecimal opcode first second result
  else if !(← get).isX64 then
    let left ← load first
    let right ← operand second .registerOrImmediate
    emitThree opcode (← reusableDestination first result) left right
  else if opcode == .add && (← isAddressSum first second) then
    buildAddressSum first second result
  else
    let source ← operand second .any
    buildOverwriting opcode first result source

/-! ## Products -/

/-- A product with a power of two. -/
def buildShift (first : ValueId) (shift : Nat) (result : ValueId) : Generating Unit := do
  if !(← get).isX64 then
    let value ← load first
    emitThree .shiftLeft (← reusableDestination first result) value (.immediate (.ofNat shift))
  else if shift ≤ largestAddressShift ∧ (← handleOf first).register?.isSome ∧
      !(← isExpiring first) then
    let index ← load first
    emitAddress (← allocateResult result) (.scaled index (Word.powerOfTwo shift))
  else buildOverwriting .shiftLeft first result (.immediate (.ofNat shift))

/-- A product with one more than a power of two, on x64: an address with its base as the index. -/
def buildAddressProduct (first : ValueId) (shift : Nat) (result : ValueId) : Generating Unit := do
  let index ← load first
  let d ← reusableDestination first result
  emitAddress d (.indexed (.register index) index (Word.powerOfTwo shift) 0)

/-- A product with one more than a power of two, on arm64: a sum with a shifted operand. -/
def buildShiftedSum (first : ValueId) (shift : Nat) (result : ValueId) : Generating Unit := do
  let value ← load first
  let d ← reusableDestination first result
  emit .add [.register d, .register value, .register value, .modifier s!"lsl #{shift}"]

/-- A product of two values, both in registers on arm64. -/
def buildProduct (first second result : ValueId) : Generating Unit := do
  if (← get).isX64 then
    let source ← operand second .any
    buildOverwriting .multiply first result source
  else
    let left ← load first
    let right ← load second
    emitThree .multiply (← reusableDestination first result) left (.register right)

/-- A product with a constant that is no power of two and no such power plus one. -/
def buildConstantProduct (first : ValueId) (constant : Word) (second result : ValueId) :
    Generating Unit := do
  if (← get).isX64 && Word.fitsIn constant 32 then
    let source ← operand first .any
    let d ← reusableDestination first result
    emit .multiply [.register d, source, .immediate constant]
  else buildProduct first second result

/-- A product with a constant, which is also the value of the second operand. -/
def buildScaled (first : ValueId) (constant : Word) (second result : ValueId) :
    Generating Unit := do
  match Word.exponent? constant with
  | some shift => buildShift first shift result
  | none =>
    let x64 := (← get).isX64
    match if 2 < constant.toInt then Word.exponent? (constant - 1) else none with
    | some shift =>
      if !x64 then buildShiftedSum first shift result
      else if shift ≤ largestAddressShift then buildAddressProduct first shift result
      else buildConstantProduct first constant second result
    | none => buildConstantProduct first constant second result

/-- The integer constant that a value is. -/
def integerOf? (v : ValueId) : Generating (Option Word) := do
  match ← handleOf v with
  | .constant (.integer w) => return some w
  | _ => return none

/-- A product. -/
def buildMultiplication (first second result : ValueId) : Generating Unit := do
  if (← formatOf result).isDecimal then buildDecimal .multiply first second result
  else
    match ← integerOf? second, ← integerOf? first with
    | some w, _ => buildScaled first w second result
    | none, some w => buildScaled second w first result
    | none, none => buildProduct first second result

/-! ## Redirection -/

end Generating

/-- An operation that writes another register instead of its own, if it can. On x64 an operation
that reads its destination cannot, but a small shift becomes an address computation. -/
def Operation.retarget? (x64 : Bool) (old new : Register) (o : Operation) : Option Operation :=
  match o.operands with
  | .register d :: rest =>
    if d ≠ old then none
    else
      let moved : Option Operation := some ⟨o.opcode, .register new :: rest⟩
      match o.opcode with
      | .shiftLeft =>
        if !x64 then moved
        else
          match rest with
          | .immediate w :: _ =>
            if 0 ≤ w.toInt ∧ w.toInt ≤ largestAddressShift then
              some ⟨.loadAddress,
                [.register new, .memory (.scaled d (Word.powerOfTwo w.toInt.toNat))]⟩
            else none
          | _ => none
      | .multiply => if !x64 ∨ rest.length = 2 then moved else none
      | .loadAddress | .move => moved
      | .add | .subtract => if x64 then none else moved
      | _ => none
  | _ => none

namespace Generating

/-- Lets the instruction right before, which made a value that is needed by this one alone, write
another register. That register then belongs to an owner. Tells whether it was possible. -/
def redirect (v : ValueId) (new : Register) (owner : ValueId) : Generating Bool := do
  let some producer := (← cellOf v).instruction? | return false
  if producer + 1 ≠ (← get).position then return false
  if !(← isExpiring v) then return false
  let some r := (← handleOf v).register? | return false
  if r = new ∨ r.bank ≠ new.bank ∨ (← owner? r) ≠ some v then return false
  let some i := (← get).instructions[producer]? | return false
  if i.result ≠ v then return false
  let some o := i.operations.getLast?.bind (Operation.retarget? (← get).isX64 r new) | return false
  modify fun s =>
    { s with
      instructions := s.instructions.setIfInBounds producer
        { i with operations := i.operations.dropLast ++ [o] } }
  changeRegisters (·.release r)
  changeRegisters (·.assign new owner)
  setHandle v (.register new)
  if owner ≠ v then setHandle owner (.register new)
  return true

end Generating

end Codegen
