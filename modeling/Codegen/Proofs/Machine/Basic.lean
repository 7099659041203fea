import Mathlib.Logic.Function.Basic
import Codegen.Target
import Codegen.Operation

/-!
# Machines that run operations

An abstract machine for each architecture runs the operations of a function. Words wrap around. On
x64 arithmetic overwrites its first operand and leaves the flags undefined; on arm64 it has a
destination of its own. Memory holds a word at each address; generated code accesses words that do
not overlap. Until the frame is laid out, the slots of variables and of spilled values are apart
from memory. Decimals and calls are outside of the machine: it gets stuck on them.

* `Machine.State`: registers, memory, slots and flags;
* `Machine.perform`: one operation;
* `Machine.execute`: a list of operations without jumps;
* `Machine.run`, `Machine.Returns`: a whole function from its first operation to a return.
-/

namespace Codegen

/-! ## Comparisons and shifts -/

/-- Does the outcome hold of two words without signs? -/
def Comparison.holdsUnsigned : Comparison → Word → Word → Bool
  | equal, a, b => a == b
  | notEqual, a, b => a != b
  | less, a, b => a.toUInt64 < b.toUInt64
  | lessOrEqual, a, b => a.toUInt64 ≤ b.toUInt64
  | greater, a, b => b.toUInt64 < a.toUInt64
  | greaterOrEqual, a, b => b.toUInt64 ≤ a.toUInt64

/-- The distance of a shift that decorates an operand. -/
def shiftOf? (text : String) : Option Nat :=
  (List.range 64).find? fun k => s!"lsl #{k}" == text

theorem shiftOf?_text : ∀ k < 64, shiftOf? s!"lsl #{k}" = some k := by decide +kernel

/-- Arithmetic of two words, for the operations that do arithmetic. -/
def Opcode.onWords? : Opcode → Option (Word → Word → Word)
  | add => some (· + ·)
  | subtract => some (· - ·)
  | multiply => some (· * ·)
  | shiftLeft => some (· <<< ·)
  | _ => none

namespace Machine

/-- What a running function works on. -/
structure State where
  registers : Register → Word
  memory : Word → Word
  /-- The slots of variables and spilled values that have no place in memory yet. -/
  slots : SlotKey → Word
  /-- The words that were compared last, while the flags still tell. -/
  flags? : Option (Word × Word)

/-- A word that an operation can read and write in memory. -/
inductive Location
  | word (address : Word)
  | slot (key : SlotKey)

namespace State

/-- Writes a register. -/
def set (s : State) (r : Register) (w : Word) : State :=
  { s with registers := Function.update s.registers r w }

/-- The word at a location. -/
def fetch (s : State) : Location → Word
  | .word a => s.memory a
  | .slot k => s.slots k

/-- Writes a word of memory. -/
def store (s : State) (l : Location) (w : Word) : State :=
  match l with
  | .word a => { s with memory := Function.update s.memory a w }
  | .slot k => { s with slots := Function.update s.slots k w }

@[simp]
theorem set_registers_self (s : State) (r : Register) (w : Word) : (s.set r w).registers r = w :=
  Function.update_self ..

theorem set_registers_of_ne {s : State} {r q : Register} {w : Word} (h : q ≠ r) :
    (s.set r w).registers q = s.registers q := Function.update_of_ne h ..

@[simp]
theorem set_slots (s : State) (r : Register) (w : Word) : (s.set r w).slots = s.slots := rfl

@[simp]
theorem store_registers (s : State) (l : Location) (w : Word) :
    (s.store l w).registers = s.registers := by
  cases l <;> rfl

@[simp]
theorem store_slots_self (s : State) (k : SlotKey) (w : Word) :
    (s.store (.slot k) w).slots k = w := Function.update_self ..

theorem store_slots_of_ne {s : State} {k j : SlotKey} {w : Word} (h : j ≠ k) :
    (s.store (.slot k) w).slots j = s.slots j := Function.update_of_ne h ..

end State

/-- Where control goes after an operation. -/
inductive Control
  | next
  | jump (label : String)
  | leave

end Machine

/-- An architecture, with the addresses of constants and of stack arrays. -/
structure Machine where
  architecture : Architecture
  constants : String → Word
  arrays : String → Word

namespace Machine

/-! ## Operands -/

/-- The slot that a memory operand is, if it is the whole slot of a variable or a spilled value. -/
def slotOf? (o : MemoryOperand) : Option SlotKey :=
  match o.base?, o.index? with
  | some (.slot (.inline _)), _ => none
  | some (.slot k), none => if o.displacement = 0 then some k else none
  | _, _ => none

section Operands

variable (m : Machine) (s : State)

/-- What an address starts from. -/
def baseOf? : Base → Option Word
  | .register r => some (s.registers r)
  | .slot (.inline identity) => some (m.arrays identity)
  | .slot _ => none
  | .constant identifier => some (m.constants identifier)

/-- The address of a memory operand. -/
def address? (o : MemoryOperand) : Option Word := do
  let base ← o.base?.elim (some 0) (m.baseOf? s)
  return base + (o.index?.elim 0 fun r => s.registers r * o.scale) + o.displacement

/-- The location of a memory operand. -/
def location? (o : MemoryOperand) : Option Location :=
  match slotOf? o with
  | some k => some (.slot k)
  | none => (m.address? s o).map .word

/-- The value of an operand. -/
def read : Operand → Option Word
  | .register r => some (s.registers r)
  | .immediate w => some w
  | .memory o => (m.location? s o).map s.fetch
  | .label _ | .modifier _ => none

end Operands

/-! ## Operations -/

/-- Arithmetic on x64: the destination is also the first operand, except for a product with an
immediate. -/
def computeX64 (m : Machine) (s : State) (opcode : Opcode) : List Operand → Option State
  | [.register d, source] => do
    let f ← opcode.onWords?
    return { s.set d (f (s.registers d) (← m.read s source)) with flags? := none }
  | [.register d, source, .immediate w] => do
    match opcode, source with
    | .multiply, .register _ | .multiply, .memory _ =>
      return { s.set d ((← m.read s source) * w) with flags? := none }
    | _, _ => none
  | _ => none

/-- Arithmetic on arm64: a destination, and operands in registers or immediates. -/
def computeArm64 (s : State) (opcode : Opcode) : List Operand → Option State
  | [.register d, .register l, .register r] => do
    let f ← opcode.onWords?
    return s.set d (f (s.registers l) (s.registers r))
  | [.register d, .register l, .immediate w] => do
    let f ← if opcode = .multiply then none else opcode.onWords?
    return s.set d (f (s.registers l) w)
  | [.register d, .register l, .register r, .modifier text] => do
    let k ← if opcode = .add then shiftOf? text else none
    return s.set d (s.registers l + (s.registers r <<< Int64.ofNat k))
  | _ => none

/-- Arithmetic on an architecture. -/
def compute (m : Machine) (s : State) (opcode : Opcode) (operands : List Operand) : Option State :=
  match m.architecture with
  | .x64 => m.computeX64 s opcode operands
  | .arm64 => computeArm64 s opcode operands

/-- A transfer. Immediates go to memory on x64 only. -/
def transfer (m : Machine) (s : State) : List Operand → Option State
  | [.register d, source] => (m.read s source).map (s.set d)
  | [.memory o, .register r] => (m.location? s o).map fun l => s.store l (s.registers r)
  | [.memory o, .immediate w] =>
    if m.architecture.isX64 then (m.location? s o).map fun l => s.store l w else none
  | _ => none

/-- Puts words below the stack pointer, the last one first. -/
def pushWords (m : Machine) (s : State) (bytes : Nat) (ws : List Word) : State :=
  let sp := m.architecture.target.stackPointer
  let low := s.registers sp - Int64.ofNat bytes
  ws.zipIdx.foldl (fun s (w, i) => s.store (.word (low + Int64.ofNat (8 * i))) w) (s.set sp low)

/-- Takes words from the stack pointer on into registers. -/
def popWords (m : Machine) (s : State) (bytes : Nat) (rs : List Register) : State :=
  let sp := m.architecture.target.stackPointer
  let low := s.registers sp
  rs.zipIdx.foldl (fun t (r, i) => t.set r (s.memory (low + Int64.ofNat (8 * i))))
    (s.set sp (low + Int64.ofNat bytes))

/-- The operations on the stack: single words on x64, one or two registers on arm64. -/
def stack (m : Machine) (s : State) : Opcode → List Operand → Option State
  | .push, [source] =>
    if m.architecture.isX64 then (m.read s source).map fun w => m.pushWords s 8 [w] else none
  | .pop, [.register r] => if m.architecture.isX64 then some (m.popWords s 8 [r]) else none
  | .pop, [.memory o] =>
    if m.architecture.isX64 then
      let sp := m.architecture.target.stackPointer
      let w := s.memory (s.registers sp)
      let s := s.set sp (s.registers sp + 8)
      (m.location? s o).map fun l => s.store l w
    else none
  | .savePair, rs =>
    if m.architecture.isX64 then none
    else (rs.mapM Operand.register?).map fun rs => m.pushWords s 16 (rs.map s.registers)
  | .restorePair, rs =>
    if m.architecture.isX64 then none
    else (rs.mapM Operand.register?).map fun rs => m.popWords s 16 rs
  | _, _ => none

/-- An exchange of two registers, or of a register and memory. -/
def exchange (m : Machine) (s : State) : List Operand → Option State
  | [.register a, .register b] => some ((s.set a (s.registers b)).set b (s.registers a))
  | [.register a, .memory o] | [.memory o, .register a] =>
    (m.location? s o).map fun l => (s.set a (s.fetch l)).store l (s.registers a)
  | _ => none

/-- One operation: where control goes, and the state after it. -/
def perform (m : Machine) (s : State) (o : Operation) : Option (Control × State) :=
  match o.opcode with
  | .move => (m.transfer s o.operands).map (.next, ·)
  | .loadAddress =>
    match o.operands with
    | [.register d, .memory o] => (m.address? s o).map fun a => (.next, s.set d a)
    | _ => none
  | .add | .subtract | .multiply | .shiftLeft =>
    (m.compute s o.opcode o.operands).map (.next, ·)
  | .compare =>
    match o.operands with
    | [l, r] => do return (.next, { s with flags? := some (← m.read s l, ← m.read s r) })
    | _ => none
  | .jump => o.target?.map fun l => (.jump l, s)
  | .conditionalJump c signed => do
    let (a, b) ← s.flags?
    let target ← o.target?
    let holds := if signed then c.holds a b else c.holdsUnsigned a b
    return (if holds then .jump target else .next, s)
  | .label => some (.next, s)
  | .ret => some (.leave, s)
  | .push | .pop | .savePair | .restorePair => (m.stack s o.opcode o.operands).map (.next, ·)
  | .exchange =>
    if m.architecture.isX64 then (m.exchange s o.operands).map (.next, ·) else none
  | .call | .convert => none

/-! ## Runs -/

/-- Operations one after the other, as long as none of them jumps or returns. -/
def execute (m : Machine) : List Operation → State → Option State
  | [], s => some s
  | o :: rest, s =>
    match m.perform s o with
    | some (.next, s) => m.execute rest s
    | _ => none

/-- The place behind a label. -/
def placeOf? (program : List Operation) (label : String) : Option Nat :=
  program.findIdx? fun o => o.opcode == .label && o.target? == some label

/-- The state at the return, if the function returns within that many operations. -/
def run (m : Machine) (program : List Operation) : Nat → Nat → State → Option State
  | 0, _, _ => none
  | fuel + 1, place, s => do
    let o ← program[place]?
    match ← m.perform s o with
    | (.next, s) => m.run program fuel (place + 1) s
    | (.jump label, s) => m.run program fuel (← placeOf? program label) s
    | (.leave, s) => return s

/-- The function, run from its first operation, returns in that state. -/
def Returns (m : Machine) (program : List Operation) (s t : State) : Prop :=
  ∃ fuel, m.run program fuel 0 s = some t

variable {m : Machine} {s t u : State} {xs ys : List Operation}

@[simp]
theorem execute_nil : m.execute [] s = some s := rfl

theorem execute_cons {o : Operation} (h : m.perform s o = some (.next, t)) :
    m.execute (o :: xs) s = m.execute xs t := by
  rw [execute, h]

theorem execute_singleton {o : Operation} (h : m.perform s o = some (.next, t)) :
    m.execute [o] s = some t := by
  rw [execute_cons h, execute_nil]

theorem execute_append (h : m.execute xs s = some t) :
    m.execute (xs ++ ys) s = m.execute ys t := by
  induction xs generalizing s with
  | nil =>
    obtain rfl := Option.some.inj h
    rfl
  | cons o xs ih =>
    rw [execute] at h
    split at h
    next hp =>
      rw [List.cons_append, execute_cons hp]
      exact ih h
    next => simp at h

theorem run_of_execute (before after : List Operation) (h : m.execute xs s = some t)
    (fuel : Nat) :
    m.run (before ++ xs ++ after) (fuel + xs.length) before.length s =
      m.run (before ++ xs ++ after) fuel (before.length + xs.length) t := by
  induction xs generalizing s before with
  | nil =>
    obtain rfl := Option.some.inj h
    rfl
  | cons o xs ih =>
    rw [execute] at h
    split at h
    next hp =>
      have ih := ih (before ++ [o]) h
      rw [List.length_append, List.length_singleton] at ih
      have hplace : (before ++ o :: xs ++ after)[before.length]? = some o := by simp
      rw [List.length_cons, ← Nat.add_assoc, run, hplace]
      simp only [Option.bind_eq_bind, Option.bind_some, hp]
      simpa [Nat.add_assoc, Nat.add_comm 1] using ih
    next => simp at h

theorem returns_of_execute (h : m.execute xs s = some t) (ys : List Operation) :
    m.Returns (xs ++ ⟨.ret, []⟩ :: ys) s t := by
  refine ⟨1 + xs.length, ?_⟩
  have := run_of_execute [] (⟨.ret, []⟩ :: ys) h 1
  simp only [List.nil_append, List.length_nil, Nat.zero_add] at this
  rw [this, run]
  simp [perform]

end Machine

end Codegen
