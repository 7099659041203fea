import Codegen.Listing.Stream
import Codegen.Selection.Build

/-!
# Stack frames

When all operations of a function are known, each stack slot that they mention gets its place in
the frame, and the preserved registers that they mention are saved around the body.

* `Frame.layout`: the frame of a function;
* `Frame.locate`: an operand with its slot replaced by an address;
* `Frame.prologue`, `Frame.epilogue`: the operations around the body;
* `Frame.complete`: the operations of the whole function.
-/

namespace Codegen

/-- The frame of a function. -/
structure Frame where
  /-- The distance of each slot from the stack pointer. -/
  offsets : List (SlotKey × Nat)
  /-- The bytes below the saved registers. -/
  size : Nat
  /-- The saved registers in the order of saving. -/
  saved : List Register
deriving DecidableEq, Inhabited

namespace Frame

/-! ## Sizes -/

/-- A size that a frame can have. -/
def checked (c : Crash) (size : Nat) : Except Fault Nat :=
  if size < 0x100000000 then .ok size else .error (.crash c)

/-- The least multiple of an alignment that is not below a size. -/
def align (size alignment : Nat) : Except Fault Nat :=
  checked .productTooLarge ((size + alignment - 1) / alignment * alignment)

/-- The sum of two sizes. -/
def plus (size more : Nat) : Except Fault Nat := checked .sumTooLarge (size + more)

/-! ## Layout -/

/-- The slot that an operand is in. -/
def slotOf? : Operand → Option SlotKey
  | .memory ⟨some (.slot k), _, _, _⟩ => some k
  | _ => none

/-- The bytes of a stack array, by its name. -/
def arrayBytes? (instructions : List Instruction) (identity : String) : Option Nat :=
  instructions.reverse.findSome? fun i =>
    match i.kind with
    | .allocateStack name bytes => if name = identity then some bytes else none
    | _ => none

/-- The bytes of a slot. -/
def slotBytes (instructions : List Instruction) : SlotKey → Nat
  | .inline identity => (arrayBytes? instructions identity).getD 8
  | .ofVariable _ | .temporary _ => Size.qword.bytes

/-- Slots with their places, and the bytes that they take. -/
abbrev Slots := List (SlotKey × Nat) × Nat

/-- Gives a slot its place behind the others. -/
def addSlot (instructions : List Instruction) : Slots → SlotKey → Except Fault Slots
  | (offsets, size), k =>
    if (offsets.lookup k).isSome then .ok (offsets, size)
    else do
      let bytes ← align (max (slotBytes instructions k) 1) 8
      return (offsets ++ [(k, size)], ← plus size bytes)

/-- The places of the slots that operations mention, in the order in which they do. -/
def slotsOf (instructions : List Instruction) (body : List Operation) : Except Fault Slots :=
  ((body.flatMap (·.operands)).filterMap slotOf?).foldlM (addSlot instructions) ([], 0)

/-- The preserved registers that operations mention, ascending. -/
def savedOf (target : Target) (body : List Operation) : List Register :=
  let preserved := target.allocatable.diff target.volatile
  (((body.flatMap (·.registers)).filter preserved.contains).eraseDups).mergeSort Register.le

/-- The size of a frame with slots of so many bytes. Calls find the stack pointer at a multiple of
16; on x64 the return address and the saved registers count with the frame. -/
def sizeOf (config : Config) (saved : List Register) (bytes : Nat) : Except Fault Nat :=
  match config.architecture with
  | .x64 => do
    let pushed := 8 * (1 + saved.length + if config.debug then 1 else 0)
    return (← align (← plus pushed bytes) 16) - pushed
  | .arm64 => align bytes 16

/-- The frame of a function with the given operations. -/
def layout (config : Config) (instructions : List Instruction) (body : List Operation) :
    Except Fault Frame := do
  let (offsets, bytes) ← slotsOf instructions body
  let saved := savedOf config.architecture.target body
  return ⟨offsets, ← sizeOf config saved bytes, saved⟩

/-- The slots with their places, ascending by places. -/
def sortedOffsets (f : Frame) (s : SymbolTable) : List (Nat × String) :=
  (f.offsets.map fun (k, offset) => (offset, k.caption s)).mergeSort fun a b =>
    a.1 < b.1 || a.1 == b.1 && a.2 ≤ b.2

/-! ## Addresses of slots -/

/-- The address of a memory operand once its slot has a place. -/
def locateMemory (f : Frame) (stackPointer : Register) (m : MemoryOperand) :
    Except Fault MemoryOperand :=
  match m.base? with
  | some (.slot k) =>
    match f.offsets.lookup k with
    | none => .error (.inconsistent (.slotWithoutOffset k))
    | some offset => do
      let displacement ←
        Fault.expect .sumTooLarge (Word.add? m.displacement (Int64.ofNat offset))
      return { m with base? := some (.register stackPointer), displacement }
  | _ => .ok m

/-- An operand with its slot replaced by an address. -/
def locate (f : Frame) (stackPointer : Register) : Operand → Except Fault Operand
  | .memory m => return .memory (← f.locateMemory stackPointer m)
  | o => .ok o

/-! ## Around the body -/

/-- Moves the stack pointer by so many bytes, down with a difference and up with a sum. -/
def adjustStack (a : Architecture) (opcode : Opcode) (bytes : Nat) : List Operation :=
  let sp := Operand.register a.target.stackPointer
  let immediate := Operand.immediate (.ofNat bytes)
  if bytes = 0 then []
  else
    match a, a.target.scratch? with
    | .arm64, some r =>
      if bytes < 4096 then [⟨opcode, [sp, sp, immediate]⟩]
      else [⟨.move, [.register r, immediate]⟩, ⟨opcode, [sp, sp, .register r]⟩]
    | _, _ => [⟨opcode, [sp, immediate]⟩]

/-- Registers by twos, the last one alone if their number is odd. -/
def pairsOf : List Register → List (List Register)
  | [] => []
  | [r] => [[r]]
  | r :: s :: rest => [r, s] :: pairsOf rest

/-- The registers that are saved together, general ones first. -/
def savedPairs (f : Frame) : List (List Register) :=
  pairsOf (f.saved.filter (!·.isMedia)) ++ pairsOf (f.saved.filter (·.isMedia))

/-- An operation on registers. -/
def onRegisters (opcode : Opcode) (rs : List Register) : Operation :=
  ⟨opcode, rs.map .register⟩

/-- The operations that save what has to be preserved and make room for the slots. -/
def prologue (f : Frame) (config : Config) : List Operation :=
  let a := config.architecture
  let (sp, fp) := (a.target.stackPointer, a.target.framePointer)
  let saving :=
    match a with
    | .x64 =>
      (if config.debug then [onRegisters .push [fp], onRegisters .move [fp, sp]] else []) ++
        f.saved.map fun r => onRegisters .push [r]
    | .arm64 =>
      [onRegisters .savePair [fp, Target.linkRegister], onRegisters .move [fp, sp]] ++
        f.savedPairs.map (onRegisters .savePair)
  saving ++ adjustStack a .subtract f.size

/-- The operations that undo the prologue and return. -/
def epilogue (f : Frame) (config : Config) : List Operation :=
  let a := config.architecture
  let fp := a.target.framePointer
  let restoring :=
    match a with
    | .x64 =>
      (f.saved.reverse.map fun r => onRegisters .pop [r]) ++
        if config.debug then [onRegisters .pop [fp]] else []
    | .arm64 =>
      f.savedPairs.reverse.map (onRegisters .restorePair) ++
        [onRegisters .restorePair [fp, Target.linkRegister]]
  adjustStack a .add f.size ++ restoring ++ [⟨.ret, []⟩]

/-- An operation of the body inside the frame; a return becomes the epilogue. -/
def enclose (f : Frame) (config : Config) (o : Operation) : Except Fault (List Operation) :=
  if o.opcode = .ret then .ok (f.epilogue config)
  else do
    return [⟨o.opcode, ← o.operands.mapM (f.locate config.architecture.target.stackPointer)⟩]

/-- The operations of the whole function. -/
def complete (f : Frame) (config : Config) (body : List Operation) :
    Except Fault (List Operation) := do
  return f.prologue config ++ (← body.mapM (f.enclose config)).flatten

end Frame

end Codegen
