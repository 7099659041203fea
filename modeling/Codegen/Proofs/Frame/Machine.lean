import Mathlib.Logic.Function.Basic
import Mathlib.Logic.Relation
import Codegen.Operation
import Codegen.Target

/-!
# Machines with bytes

A machine that runs the operations of a whole function, for what the code around its body has to
keep. Memory is made of bytes, so that words overlap, and addresses wrap around. What the function
computes does not matter here: products, shifts, addresses and decimals may be anything, a
conditional jump goes either way, and a call may change all that callees need not keep. So whatever
holds of all runs holds of the real ones.

* `ByteMachine.State`: registers and memory;
* `ByteMachine`: **what a function runs on**, with the bytes that may be written;
* `ByteMachine.Performs`, `Step`, `Reaches`: **one operation, one step, and runs**;
* `State.load_store_self`, `load_congr`: words in memory.
-/

namespace Codegen

/-! ## States -/

/-- What a function works on: registers of 64 bits, and bytes at 64-bit addresses. -/
structure ByteMachine.State where
  registers : Register → BitVec 64
  memory : BitVec 64 → BitVec 8

namespace ByteMachine

/-- A byte is one of that many bytes from an address on. -/
def Within (a : BitVec 64) (n : Nat) (b : BitVec 64) : Prop := (b - a).toNat < n

instance (a : BitVec 64) (n : Nat) (b : BitVec 64) : Decidable (Within a n b) :=
  inferInstanceAs (Decidable ((b - a).toNat < n))

namespace State

/-- Writes a register. -/
def set (s : State) (r : Register) (w : BitVec 64) : State :=
  { s with registers := Function.update s.registers r w }

/-- The word at an address, the lowest byte first. -/
def load (s : State) (a : BitVec 64) : BitVec 64 :=
  s.memory (a + 7) ++ s.memory (a + 6) ++ s.memory (a + 5) ++ s.memory (a + 4) ++
    s.memory (a + 3) ++ s.memory (a + 2) ++ s.memory (a + 1) ++ s.memory a

/-- Writes the word at an address. -/
def store (s : State) (a w : BitVec 64) : State :=
  { s with
    memory := fun b => if Within a 8 b then w.extractLsb' (8 * (b - a).toNat) 8 else s.memory b }

variable {s t : State} {r q : Register} {a b w : BitVec 64}

@[simp]
theorem set_registers_self : (s.set r w).registers r = w := Function.update_self ..

theorem set_registers_of_ne (h : q ≠ r) : (s.set r w).registers q = s.registers q :=
  Function.update_of_ne h ..

@[simp]
theorem set_memory : (s.set r w).memory = s.memory := rfl

@[simp]
theorem store_registers : (s.store a w).registers = s.registers := rfl

theorem store_memory_of_not_within (h : ¬ Within a 8 b) : (s.store a w).memory b = s.memory b :=
  if_neg h

theorem load_store_self (s : State) (a w : BitVec 64) : (s.store a w).load a = w := by
  have byte (i : Nat) (hi : i < 8) :
      (s.store a w).memory (a + BitVec.ofNat 64 i) = w.extractLsb' (8 * i) 8 := by
    have h : (a + BitVec.ofNat 64 i - a).toNat = i := by bv_omega
    show (if (a + BitVec.ofNat 64 i - a).toNat < 8 then _ else _) = _
    rw [if_pos (by omega), h]
  have h₀ : (s.store a w).memory a = w.extractLsb' 0 8 := by simpa using byte 0 (by decide)
  have h₁ := byte 1 (by decide)
  have h₂ := byte 2 (by decide)
  have h₃ := byte 3 (by decide)
  have h₄ := byte 4 (by decide)
  have h₅ := byte 5 (by decide)
  have h₆ := byte 6 (by decide)
  have h₇ := byte 7 (by decide)
  simp only [load, BitVec.ofNat_eq_ofNat, h₀, h₁, h₂, h₃, h₄, h₅, h₆, h₇]
  refine BitVec.eq_of_getLsbD_eq fun i hi => ?_
  simp only [BitVec.getLsbD_append, BitVec.getLsbD_extractLsb']
  grind

theorem load_congr (h : ∀ b, Within a 8 b → t.memory b = s.memory b) : t.load a = s.load a := by
  have byte (i : Nat) (hi : i < 8) :
      t.memory (a + BitVec.ofNat 64 i) = s.memory (a + BitVec.ofNat 64 i) :=
    h _ (by unfold Within; bv_omega)
  have h₀ : t.memory a = s.memory a := by simpa using byte 0 (by decide)
  have h₁ := byte 1 (by decide)
  have h₂ := byte 2 (by decide)
  have h₃ := byte 3 (by decide)
  have h₄ := byte 4 (by decide)
  have h₅ := byte 5 (by decide)
  have h₆ := byte 6 (by decide)
  have h₇ := byte 7 (by decide)
  simp only [load, BitVec.ofNat_eq_ofNat, h₀, h₁, h₂, h₃, h₄, h₅, h₆, h₇]

/-! ## The stack -/

/-- Writes words one behind another. -/
def storeAll (s : State) (a : BitVec 64) : List (BitVec 64) → State
  | [] => s
  | w :: ws => (s.store a w).storeAll (a + 8) ws

/-- Puts words on the stack, which grows down by so many bytes. -/
def pushed (s : State) (sp : Register) (bytes : Nat) (ws : List (BitVec 64)) : State :=
  (s.set sp (s.registers sp - .ofNat 64 bytes)).storeAll (s.registers sp - .ofNat 64 bytes) ws

/-- Gives registers the words one behind another in the memory of a state. -/
def loadAll (s source : State) (a : BitVec 64) : List Register → State
  | [] => s
  | r :: rs => (s.set r (source.load a)).loadAll source (a + 8) rs

/-- Takes words from the stack, which shrinks by so many bytes. -/
def popped (s : State) (sp : Register) (bytes : Nat) (rs : List Register) : State :=
  (s.set sp (s.registers sp + .ofNat 64 bytes)).loadAll s (s.registers sp) rs

end State

end ByteMachine

/-! ## Machines -/

/-- **What a function runs on.** -/
structure ByteMachine where
  stackPointer : Register
  /-- The addresses of the constants of the data section. -/
  constants : String → BitVec 64
  /-- The registers that callees keep, beside the stack pointer. -/
  kept : Register → Prop
  /-- The bytes that memory operands and callees may write. -/
  writable : BitVec 64 → Prop

namespace ByteMachine

variable (k : ByteMachine)

/-! ## Operands -/

/-- What an address starts from; slots have no address before the frame is laid out. -/
def baseOf? (s : State) : Option Base → Option (BitVec 64)
  | none => some 0
  | some (.register r) => some (s.registers r)
  | some (.constant identifier) => some (k.constants identifier)
  | some (.slot _) => none

/-- The address of a memory operand. -/
def addressOf? (s : State) (m : MemoryOperand) : Option (BitVec 64) :=
  (k.baseOf? s m.base?).map fun base =>
    base + m.index?.elim 0 s.registers * m.scale.toBitVec + m.displacement.toBitVec

/-- The value of an operand. -/
def valueOf? (s : State) : Operand → Option (BitVec 64)
  | .register r => some (s.registers r)
  | .immediate w => some w.toBitVec
  | .memory m => (k.addressOf? s m).map s.load
  | .label _ | .modifier _ => none

/-- Writing an operand, whose address is that in another state. -/
inductive Writes (s₀ : State) : Operand → BitVec 64 → State → State → Prop
  | register {r w s} : Writes s₀ (.register r) w s (s.set r w)
  | memory {m a w s} (ha : k.addressOf? s₀ m = some a) (hw : ∀ b, Within a 8 b → k.writable b) :
    Writes s₀ (.memory m) w s (s.store a w)

/-! ## Operations -/

/-- The sums and differences of words. -/
def sum? : Opcode → Option (BitVec 64 → BitVec 64 → BitVec 64)
  | .add => some (· + ·)
  | .subtract => some (· - ·)
  | _ => none

/-- The operations whose outcome may be anything: all other arithmetic, that of decimals, and sums
with a shifted operand. -/
def IsFree (c : Opcode) (d : Operand) (xs : List Operand) : Prop :=
  c ∈ [.loadAddress, .multiply, .shiftLeft, .convert] ∨
    c ∈ [.add, .subtract] ∧ (d.isMedia = true ∨ xs.length = 3)

/-- **What one operation may do**, jumps that are taken apart. -/
inductive Performs : Operation → State → State → Prop
  | move {d x w s s'} (hx : k.valueOf? s x = some w) (hd : k.Writes s d w s s') :
    Performs ⟨.move, [d, x]⟩ s s'
  | sumInto {c f d x v w s s'} (hc : sum? c = some f) (hm : d.isMedia = false)
    (hv : k.valueOf? s d = some v) (hx : k.valueOf? s x = some w)
    (hd : k.Writes s d (f v w) s s') : Performs ⟨c, [d, x]⟩ s s'
  | sum {c f d l x v w s s'} (hc : sum? c = some f) (hm : d.isMedia = false)
    (hv : k.valueOf? s l = some v) (hx : k.valueOf? s x = some w)
    (hd : k.Writes s d (f v w) s s') : Performs ⟨c, [d, l, x]⟩ s s'
  | free {c d xs w s s'} (hc : IsFree c d xs) (hd : k.Writes s d w s s') :
    Performs ⟨c, d :: xs⟩ s s'
  | exchange {x y v w s s₁ s'} (hx : k.valueOf? s x = some v) (hy : k.valueOf? s y = some w)
    (h₁ : k.Writes s x w s s₁) (h₂ : k.Writes s y v s₁ s') : Performs ⟨.exchange, [x, y]⟩ s s'
  | push {x w s} (hx : k.valueOf? s x = some w) :
    Performs ⟨.push, [x]⟩ s (s.pushed k.stackPointer 8 [w])
  -- the address of a place that is popped is that behind the change of the stack pointer
  | pop {x s s'} (h : k.Writes (s.popped k.stackPointer 8 []) x
      (s.load (s.registers k.stackPointer)) (s.popped k.stackPointer 8 []) s') :
    Performs ⟨.pop, [x]⟩ s s'
  | savePair {xs s} {rs : List Register} (hx : xs = rs.map .register)
    (hr : rs.length = 1 ∨ rs.length = 2) :
    Performs ⟨.savePair, xs⟩ s (s.pushed k.stackPointer 16 (rs.map s.registers))
  | restorePair {xs s} {rs : List Register} (hx : xs = rs.map .register)
    (hr : rs.length = 1 ∨ rs.length = 2) :
    Performs ⟨.restorePair, xs⟩ s (s.popped k.stackPointer 16 rs)
  | compare {xs s} : Performs ⟨.compare, xs⟩ s s
  | label {xs s} : Performs ⟨.label, xs⟩ s s
  | stay {c signed xs s} : Performs ⟨.conditionalJump c signed, xs⟩ s s
  | call {xs s s'} (hp : s'.registers k.stackPointer = s.registers k.stackPointer)
    (hr : ∀ r, k.kept r → s'.registers r = s.registers r)
    (hm : ∀ b, ¬ k.writable b → s'.memory b = s.memory b) : Performs ⟨.call, xs⟩ s s'

/-! ## Runs -/

/-- The operations that may go on elsewhere. -/
def IsJump (c : Opcode) : Prop := c = .jump ∨ ∃ t signed, c = .conditionalJump t signed

/-- What is left to run, and the state to run it from. -/
abbrev Configuration := List Operation × State

variable (program : List Operation)

/-- **One step of a run**: to the next operation, or to a label of the program. A return is the end
of a run. -/
inductive Step : Configuration → Configuration → Prop
  | next {o rest s s'} (h : k.Performs o s s') : Step (o :: rest, s) (rest, s')
  | jump {c name before after rest s} (hc : IsJump c)
    (hp : program = before ++ Operation.label name :: after) :
    Step (⟨c, [.label name]⟩ :: rest, s) (Operation.label name :: after, s)

/-- **Any number of steps.** -/
abbrev Reaches : Configuration → Configuration → Prop := Relation.ReflTransGen (k.Step program)

end ByteMachine

end Codegen
