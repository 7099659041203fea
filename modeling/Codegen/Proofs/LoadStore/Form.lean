import Codegen.Frame
import Codegen.Listing.Arm64

/-!
# Load and store form

On an architecture that computes in registers, memory is reached by loads and stores alone. The
operations that are emitted for it follow a grammar: it has no stack operations and no exchange,
indexed addresses have one shape, and immediates fit their fields.

* `MemoryOperand.IsLoadable`: the addresses of loads and stores;
* `Operand.IsSmall`: the second operands of sums and comparisons;
* `Operation.IsLoadStore`: **the grammar of the operations**;
* `Operation.ObeysLoadStore`, `IsLoadStore.obeys`: **what every operation of the grammar obeys**;
* `MemoryOperand.wholeText`, `IsLoadable.arm64Text_eq`: the text of such an address has all of it.
-/

namespace Codegen

/-! ## Operands -/

/-- The addresses of loads and stores: a displacement from a base, or a register plus a word index
or a byte index. -/
inductive MemoryOperand.IsLoadable : MemoryOperand → Prop
  | displaced {b : Base} {d : Word} (h : ∀ i, b = .constant i → d = 0) : IsLoadable (.displaced b d)
  | indexed {r x : Register} {scale : Word} (h : scale = 1 ∨ scale = 8) :
    IsLoadable (.indexed (.register r) x scale 0)

/-- The second operands of sums and comparisons: registers, and immediates of twelve bits. -/
inductive Operand.IsSmall : Operand → Prop
  | register (r : Register) : IsSmall (.register r)
  | immediate {w : Word} (h : 0 ≤ w.toInt ∧ w.toInt < 4096) : IsSmall (.immediate w)

/-! ## Operations -/

/-- **The grammar of the operations.** -/
inductive Operation.IsLoadStore : Operation → Prop
  | transfer (d s : Register) : IsLoadStore ⟨.move, [.register d, .register s]⟩
  | word (d : Register) (w : Word) : IsLoadStore ⟨.move, [.register d, .immediate w]⟩
  | load (d : Register) {m : MemoryOperand} (h : m.IsLoadable) :
    IsLoadStore ⟨.move, [.register d, .memory m]⟩
  | store (s : Register) {m : MemoryOperand} (h : m.IsLoadable) :
    IsLoadStore ⟨.move, [.memory m, .register s]⟩
  | address (d : Register) {b : Base} {w : Word} (h : ∀ i, b = .constant i → w = 0) :
    IsLoadStore ⟨.loadAddress, [.register d, .memory (.displaced b w)]⟩
  | sum {c : Opcode} (hc : c = .add ∨ c = .subtract) (d l : Register) {x : Operand}
      (h : x.IsSmall) : IsLoadStore ⟨c, [.register d, .register l, x]⟩
  | shiftedSum (d l r : Register) {k : Nat} (h : k < 64) :
    IsLoadStore ⟨.add, [.register d, .register l, .register r, .modifier s!"lsl #{k}"]⟩
  | comparison (l : Register) {x : Operand} (h : x.IsSmall) :
    IsLoadStore ⟨.compare, [.register l, x]⟩
  | product (d l r : Register) :
    IsLoadStore ⟨.multiply, [.register d, .register l, .register r]⟩
  | shift (d l : Register) {k : Nat} (h : k < 64) :
    IsLoadStore ⟨.shiftLeft, [.register d, .register l, .immediate (.ofNat k)]⟩
  | convert (d s : Register) : IsLoadStore ⟨.convert, [.register d, .register s]⟩
  | named {c : Opcode} (hc : c ∈ [.label, .jump, .call] ∨ ∃ t s, c = .conditionalJump t s)
      (name : String) : IsLoadStore ⟨c, [.label name]⟩
  | ret : IsLoadStore ⟨.ret, []⟩
  | pair {c : Opcode} (hc : c = .savePair ∨ c = .restorePair) (rs : List Register) :
    IsLoadStore (Frame.onRegisters c rs)

/-- **What every operation obeys**: there are no stack operations and no exchange, memory operands
are those of loads, stores and address computations, an index has a register base and no
displacement, immediates fit twelve bits, the amounts of shifts are below 64, and products are of
registers. -/
structure Operation.ObeysLoadStore (o : Operation) : Prop where
  absent : o.opcode ≠ .push ∧ o.opcode ≠ .pop ∧ o.opcode ≠ .exchange
  memory : ∀ m, .memory m ∈ o.operands →
    (o.opcode = .move ∧ ∃ r : Register,
      o.operands = [.register r, .memory m] ∨ o.operands = [.memory m, .register r]) ∨
    (o.opcode = .loadAddress ∧ m.index? = none)
  indexed : ∀ m, .memory m ∈ o.operands → m.index?.isSome →
    (∃ r, m.base? = some (.register r)) ∧ m.displacement = 0 ∧ (m.scale = 1 ∨ m.scale = 8)
  immediate : ∀ w, .immediate w ∈ o.operands → o.opcode ∈ [.add, .subtract, .compare] →
    0 ≤ w.toInt ∧ w.toInt < 4096
  shift : ∀ w, .immediate w ∈ o.operands → o.opcode = .shiftLeft → 0 ≤ w.toInt ∧ w.toInt < 64
  shifted : ∀ t, .modifier t ∈ o.operands → ∃ k < 64, t = s!"lsl #{k}"
  product : o.opcode = .multiply → ∀ x ∈ o.operands, ∃ r, x = .register r

variable {m : MemoryOperand} {o o' : Operation} {x : Operand}

namespace Operation.IsLoadStore

theorem isLoadable (h : o.IsLoadStore) (hm : .memory m ∈ o.operands) : m.IsLoadable := by
  cases h with
  | load _ h | store _ h => simp_all
  | address _ h =>
    simp only [List.mem_cons, reduceCtorEq, Operand.memory.injEq, List.not_mem_nil, or_false,
      false_or] at hm
    exact hm ▸ .displaced h
  | sum _ _ _ h | comparison _ h => cases h <;> simp at hm
  | pair _ rs => simp [Frame.onRegisters] at hm
  | _ => simp at hm

theorem toInt_ofNat {k : Nat} (h : k < 64) :
    0 ≤ (Int64.ofNat k).toInt ∧ (Int64.ofNat k).toInt < 64 := by
  rw [Int64.toInt_ofNat_of_lt (by omega)]
  omega

/-- **Every operation of the grammar obeys the rules of the architecture.** -/
theorem obeys (h : o.IsLoadStore) : o.ObeysLoadStore := by
  have hindexed (m : MemoryOperand) (hm : .memory m ∈ o.operands) (hx : m.index?.isSome) :
      (∃ r, m.base? = some (.register r)) ∧ m.displacement = 0 ∧ (m.scale = 1 ∨ m.scale = 8) := by
    cases h.isLoadable hm with
    | displaced => simp [MemoryOperand.displaced] at hx
    | @indexed r x scale h => exact ⟨⟨r, rfl⟩, rfl, h⟩
  cases h with
  | sum hc d l h =>
    rcases hc with rfl | rfl <;> cases h <;> constructor <;> simp_all
  | comparison l h => cases h <;> constructor <;> simp_all
  | @shift d l k h =>
    refine ⟨by simp, by simp, by simp, by simp, fun w hw _ => ?_, by simp, by simp⟩
    obtain rfl : w = .ofNat k := by simpa using hw
    exact toInt_ofNat h
  | @named c hc name =>
    have hc : c ≠ .multiply ∧ c ≠ .push ∧ c ≠ .pop ∧ c ≠ .exchange := by
      rcases hc with hc | ⟨t, s, rfl⟩ <;> grind
    constructor <;> simp [hc]
  | pair hc rs => rcases hc with rfl | rfl <;> constructor <;> simp_all [Frame.onRegisters]
  | @shiftedSum d l r k h =>
    refine ⟨by simp, by simp, by simp, by simp, by simp, fun t ht => ⟨k, h, ?_⟩, by simp⟩
    simpa using ht
  | load d h => constructor <;> simp_all
  | store s h => constructor <;> simp_all
  | _ => constructor <;> simp_all [MemoryOperand.displaced]

theorem retarget {old new : Register} (h : o.IsLoadStore)
    (ho : o.retarget? false old new = some o') : o'.IsLoadStore := by
  have moved : ∃ rest, o.operands = .register old :: rest ∧
      o' = ⟨o.opcode, .register new :: rest⟩ ∧
      o.opcode ∈ [.shiftLeft, .multiply, .loadAddress, .move, .add, .subtract] := by
    obtain ⟨c, os⟩ := o
    cases os with
    | nil => simp [Operation.retarget?] at ho
    | cons x rest =>
      cases x with
      | register d =>
        simp only [Operation.retarget?, ne_eq, ite_not, Option.ite_none_right_eq_some] at ho
        obtain ⟨rfl, ho⟩ := ho
        refine ⟨rest, rfl, ?_⟩
        cases c <;> simp_all
      | _ => simp [Operation.retarget?] at ho
  obtain ⟨rest, hrest, rfl, hc⟩ := moved
  cases h with
  | store _ h => cases hrest
  | transfer d s => cases hrest; exact .transfer new s
  | word d w => cases hrest; exact .word new w
  | load d h => cases hrest; exact .load new h
  | address d h => cases hrest; exact .address new h
  | sum hs d l h => cases hrest; exact .sum hs new l h
  | shiftedSum d l r h => cases hrest; exact .shiftedSum new l r h
  | product d l r => cases hrest; exact .product new l r
  | shift d l h => cases hrest; exact .shift new l h
  | named hs => rcases hs with hs | ⟨t, s, rfl⟩ <;> grind
  | pair hs => rcases hs with rfl | rfl <;> simp [Frame.onRegisters] at hc
  | _ => simp at hc

end Operation.IsLoadStore

/-! ## Texts -/

namespace MemoryOperand

/-- The text of what an address starts from. -/
def baseText (m : MemoryOperand) : String :=
  match m.base? with
  | some (.register r) => r.arm64Text
  | some (.constant identifier) => identifier
  | some (.slot k) => k.describe
  | none => "xzr"

/-- The text of what is added to the base: a scaled index, and a displacement that is not zero. -/
def partsText (m : MemoryOperand) : String :=
  (match m.index? with
    | some x => ", " ++ shiftedText x m.scale
    | none => "") ++
  if m.displacement.toInt = 0 then "" else s!", #{m.displacement.toInt}"

/-- The text of an address with all its parts; a constant without other parts needs no brackets. -/
def wholeText (m : MemoryOperand) : String :=
  match m.base? with
  | some (.constant identifier) =>
    if m.partsText = "" then identifier else "[" ++ identifier ++ m.partsText ++ "]"
  | _ => "[" ++ m.baseText ++ m.partsText ++ "]"

/-- **No part of such an address is lost when it is written.** -/
theorem IsLoadable.arm64Text_eq (h : m.IsLoadable) : m.arm64Text = m.wholeText := by
  cases h with
  | @displaced b d h =>
    cases b with
    | constant i =>
      obtain rfl := h i rfl
      rfl
    | register | slot =>
      simp only [arm64Text, wholeText, addressText, partsText, baseText, MemoryOperand.displaced]
      by_cases hd : d.toInt = 0 <;> simp [hd, String.append_assoc, ToString.toString]
  | indexed h => simp [arm64Text, wholeText, addressText, partsText, baseText,
      MemoryOperand.indexed, String.append_assoc]

end MemoryOperand

end Codegen
