import Codegen.Placement.Register

/-!
# Operands

What an instruction accepts decides in which form it gets a value: constants that fit become
immediates, memory stays memory where the architecture can address it, and all else is loaded into
a register. The address of a value in memory is computed from other values, which are loaded first.

* `Generating.load`, `loadAs`, `loadForWrite`: a value in a register;
* `Generating.memoryOperand`: the address of a place in memory;
* `Generating.operand`: a value in a form that is accepted;
* `Generating.transferToRegister`: writes the value of a place into a register.
-/

namespace Codegen

/-- What an instruction accepts for an operand. -/
inductive Access
  | register
  | registerOrImmediate
  /-- A register, an immediate or memory. -/
  | any
deriving DecidableEq

/-- Do the instructions of an architecture have room for an immediate? -/
def Architecture.fitsImmediate (a : Architecture) (w : Word) : Bool :=
  match a with
  | .x64 => Word.fitsIn w 32
  | .arm64 => 0 ≤ w.toInt && w.toInt < 4096

/-- Can an index be scaled inside an address? -/
def Architecture.scalesBy (a : Architecture) (stride : Word) : Bool :=
  match a with
  | .x64 => [1, 2, 4, 8].contains stride
  | .arm64 => [1, 8].contains stride

namespace Generating

/-! ## Addresses

The functions of this part take the loading of a value, which is `Generating.load` in the end. -/

/-- The loading of a value into a register. -/
abbrev Loading := ValueId → Generating Register

/-- What an address that starts at a value starts from. -/
def addressBase (load : Loading) (start : ValueId) : Generating Base := do
  match ← handleOf start with
  | .inline identity _ => return .slot (.inline identity)
  | _ => return .register (← load start)

/-- A base that an index can be added to, on an architecture that indexes registers only. -/
def indexableBase : Base → Generating Base
  | .register r => return .register r
  | b => do
    if (← get).isX64 then return b
    let r ← scratch .i64
    emit .loadAddress [.register r, .memory (.displaced b 0)]
    return .register r

/-- Multiplies an index by a constant. -/
def emitScaled (destination index : Register) (scale : Word) : Generating Unit := do
  if (← get).isX64 then
    emit .multiply [.register destination, .register index, .immediate scale]
  else
    emit .move [.register destination, .immediate scale]
    emit .multiply [.register destination, .register index, .register destination]

/-- An index with the scale that an address needs it with. -/
def scaledIndex (index : Register) (stride : Word) : Generating (Register × Word) := do
  if (← get).architecture.scalesBy stride then return (index, stride)
  let scaled ← scratch .i64
  emitScaled scaled index stride
  return (scaled, 1)

/-- The address of a place in memory. -/
def addressOf (load : Loading) : Handle → Generating MemoryOperand
  | .variableSlot v => return .displaced (.slot (.ofVariable v)) 0
  | .temporarySlot k _ => return .displaced (.slot (.temporary k)) 0
  | .constantData _ identifier => return .displaced (.constant identifier) 0
  | .memory start offset => return .displaced (← addressBase load start) offset
  | .scaledMemory start offset stride => do
    match ← handleOf offset with
    | .constant n =>
      let base ← addressBase load start
      let displacement ← ask fun _ => Fault.expect .productTooLarge (Word.mul? n.toWord stride)
      return .displaced base displacement
    | _ =>
      let (index, scale) ← scaledIndex (← load offset) stride
      let base ← indexableBase (← addressBase load start)
      return .indexed base index scale 0
  | h => refuse (.notMemory h)

/-! ## Transfers into a register -/

/-- Computes a sum of a scaled value, a value and a constant. -/
def transferSum (load : Loading) (r : Register) (multiplicand : ValueId) (multiplier : Word)
    (addition : Option ValueId) (constant : Word) : Generating Unit := do
  let index ← load multiplicand
  let base? ← addition.mapM load
  if (← get).isX64 && [1, 2, 4, 8].contains multiplier then
    let base? := base?.map Base.register
    emit .loadAddress [.register r, .memory ⟨base?, some index, multiplier, constant⟩]
  else
    emitScaled r index multiplier
    base?.forM fun b => emit .add [.register r, .register r, .register b]
    if constant ≠ 0 then emit .add [.register r, .register r, .immediate constant]

/-- Writes a constant into a register; media registers get it from the data section. -/
def transferConstant (r : Register) (n : Number) : Generating Unit := do
  if r.isMedia then
    let identifier ← constantData (.decimal n.toDecimal)
    emit .move [.register r, .memory (.displaced (.constant identifier) 0)]
  else emit .move [.register r, .immediate n.toWord]

/-- Writes the value of a place into a register. -/
def transferInto (load : Loading) (r : Register) (h : Handle) (f : Format) : Generating Unit := do
  match h with
  | .register other => if other ≠ r then emit .move [.register r, .register other]
  | .constant n => transferConstant r n
  | .inline identity _ =>
    emit .loadAddress [.register r, .memory (.displaced (.slot (.inline identity)) 0)]
  | .expression multiplicand multiplier addition constant =>
    transferSum load r multiplicand multiplier addition constant
  | .none | .modifier _ => refuse (.notLoadable h f)
  | _ => emit .move [.register r, .memory (← addressOf load h)]

/-- Loads a value into a register that is locked; a value in memory keeps its place. -/
def loadStep (load : Loading) : Loading := fun v => do
  match ← handleOf v with
  | .register r =>
    lockUsed r
    return r
  | h =>
    let f ← formatOf v
    let r ← allocate f.bank v
    transferInto load r h f
    return r

/-- Loads a value whose address is computed in at most that many steps. -/
def loadWithin : Nat → Loading
  | 0 => fun _ => throw (.crash .missing)
  | fuel + 1 => loadStep (loadWithin fuel)

/-! ## Values in registers -/

/-- Loads a value into a register that is locked; a value in memory keeps its place. An address is
computed from values that are older than it. -/
def load : Loading := fun v => do loadWithin ((← get).values.size + 1) v

/-- The address of a place in memory. -/
def memoryOperand (h : Handle) : Generating MemoryOperand := addressOf load h

/-- Writes the value of a place into a register. -/
def transferToRegister (r : Register) (h : Handle) (f : Format) : Generating Unit :=
  transferInto load r h f

/-- Loads a value as a decimal if the format is one; a decimal never becomes an integer. -/
def loadAs (v : ValueId) (f : Format) : Generating Register := do
  let source ← formatOf v
  if source.isDecimal == f.isDecimal then load v
  else if source.isDecimal then unsupported .decimalToInteger
  else
    match ← handleOf v with
    | .constant n => load (← createBriefly (.constant (.decimal n.toDecimal)) .decimal)
    | _ =>
      let integer ← load v
      let converted ← createBriefly .none .decimal
      let r ← allocate Register.mediaBank converted
      emit .convert [.register r, .register integer]
      return r

/-- The place of a value, or a register with the value converted to a format. -/
def sourceAs (v : ValueId) (f : Format) : Generating Handle := do
  if (← formatOf v).isDecimal == f.isDecimal then handleOf v
  else return .register (← loadAs v f)

/-- Does the value own a register of the bank of a format, and is it not needed any more? -/
def reusable? (v : ValueId) (f : Format) : Generating (Option Register) := do
  match ← handleOf v with
  | .register r =>
    return if r.bank = f.bank ∧ (← owner? r) = some v ∧ (← isExpiring v) then some r else none
  | _ => return none

/-- Gives a register in use to a result. -/
def takeOver (result : ValueId) (r : Register) : Generating Register := do
  place result r
  lock r
  return r

/-- A register for a result: that of its first operand if it is free from now on, or a new one. -/
def reusableDestination (first result : ValueId) : Generating Register := do
  match ← reusable? first (← formatOf result) with
  | some r => takeOver result r
  | none => allocateResult result

/-- A register for a result, with the value of its first operand in it. -/
def loadForWrite (first result : ValueId) : Generating Register := do
  let f ← formatOf result
  let owned? ←
    if (← formatOf first).isDecimal == f.isDecimal then
      match ← handleOf first with
      | .register r =>
        pure (if (← owner? r) = some first ∧ (← isExpiring first) then some r else none)
      | _ => pure none
    else pure none
  match owned? with
  | some r => takeOver result r
  | none =>
    let source ← sourceAs first f
    let r ← allocateResult result
    transferToRegister r source f
    return r

/-! ## Values in any accepted form -/

/-- A value in a form that is accepted. -/
def operand (v : ValueId) (access : Access) : Generating Operand := do
  let h ← handleOf v
  let f ← formatOf v
  let architecture := (← get).architecture
  let memory := access = .any ∧ architecture.isX64
  match h with
  | .register r =>
    lockUsed r
    return .register r
  | .constant (.integer w) =>
    if access ≠ .register ∧ !f.isDecimal ∧ architecture.fitsImmediate w then return .immediate w
    else return .register (← load v)
  | .constant (.decimal x) =>
    if memory ∧ f.isDecimal then
      return .memory (.displaced (.constant (← constantData (.decimal x))) 0)
    else return .register (← load v)
  | .constantData _ identifier =>
    if memory then return .memory (.displaced (.constant identifier) 0)
    else return .register (← load v)
  | _ =>
    if memory ∧ (h.isSlot || h.isIndirect) then return .memory (← memoryOperand h)
    else return .register (← load v)

end Generating

end Codegen
