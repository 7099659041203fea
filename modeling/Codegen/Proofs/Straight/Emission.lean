import Codegen.Proofs.Generating
import Codegen.Proofs.Machine.Basic

/-!
# Emission of straight-line operations

The build of arithmetic emits *plain* operations: transfers between registers and spill slots,
address computations and arithmetic, all into registers that values may live in. `Emits` follows a
step of the build and the machine side by side: the operations that the step adds take the machine
from one state to the other.

* `Operand.IsSimple`, `Operation.IsPlain`: the operations of straight-line code;
* `Emitted`: what lies between two moments of a build;
* `Emits`, `Emits.bind`, `Emits.step`: steps of the build, one by one.
-/

namespace Codegen

/-! ## Plain operations -/

/-- A register, a constant, or one of the slots of so many spilled values. -/
def Operand.IsSimple (n : Nat) : Operand → Prop
  | .memory o => ∃ k < n, o = .displaced (.slot (.temporary k)) 0
  | .label _ => False
  | .register _ | .immediate _ | .modifier _ => True

/-- The operation that writes a register to the slot of a spilled value. -/
def Operation.spill (k : Nat) (r : Register) : Operation :=
  ⟨.move, [.memory (.displaced (.slot (.temporary k)) 0), .register r]⟩

/-- The operations of straight-line code, with so many slots. -/
inductive Operation.IsPlain (a : Architecture) (n : Nat) : Operation → Prop
  | move {d : Register} {x : Operand} (hd : a.target.allocatable.contains d = true)
      (hx : x.IsSimple n) : IsPlain a n ⟨.move, [.register d, x]⟩
  | spill {k : Nat} (hk : k < n) (r : Register) : IsPlain a n (.spill k r)
  | address {d : Register} {o : MemoryOperand} (hd : a.target.allocatable.contains d = true)
      (ho : ∀ k, o.base? ≠ some (.slot k)) : IsPlain a n ⟨.loadAddress, [.register d, .memory o]⟩
  | arithmetic {opcode : Opcode} {d : Register} {xs : List Operand}
      (hd : a.target.allocatable.contains d = true) (ho : opcode.onWords?.isSome = true)
      (hx : ∀ x ∈ xs, x.IsSimple n) : IsPlain a n ⟨opcode, .register d :: xs⟩

theorem Operand.IsSimple.mono {n k : Nat} {x : Operand} (h : x.IsSimple n) (hk : n ≤ k) :
    x.IsSimple k := by
  cases x with
  | memory o =>
    obtain ⟨i, hi, ho⟩ := h
    exact ⟨i, Nat.lt_of_lt_of_le hi hk, ho⟩
  | label => exact h
  | _ => trivial

theorem Operation.IsPlain.mono {a : Architecture} {n k : Nat} {o : Operation} (h : o.IsPlain a n)
    (hk : n ≤ k) : o.IsPlain a k := by
  cases h with
  | move hd hx => exact .move hd (hx.mono hk)
  | spill hi r => exact .spill (Nat.lt_of_lt_of_le hi hk) r
  | address hd ho => exact .address hd ho
  | arithmetic hd ho hx => exact .arithmetic hd ho fun x hm => (hx x hm).mono hk

/-- Each of the slots between two numbers is written by an operation. -/
def Spills (ops : List Operation) (j n : Nat) : Prop :=
  ∀ k, j ≤ k → k < n → ∃ r, .spill k r ∈ ops

theorem Spills.append {xs ys : List Operation} {i j n : Nat} (h : Spills xs i j)
    (h' : Spills ys j n) : Spills (xs ++ ys) i n := fun k hi hn =>
  if hj : k < j then (h k hi hj).imp fun _ => List.mem_append_left ys
  else (h' k (Nat.le_of_not_lt hj) hn).imp fun _ => List.mem_append_right xs

theorem Spills.self (ops : List Operation) (n : Nat) : Spills ops n n :=
  fun _ hk hn => absurd hn (Nat.not_lt.mpr hk)

namespace Generating

/-! ## Emission -/

/-- Between the two moments the build added operations that take the machine from one state to the
other, and left the instructions as they are. -/
structure Emitted (m : Machine) (r : Routine) (s : Machine.State) (r' : Routine)
    (s' : Machine.State) : Prop where
  config : r'.config = r.config
  position : r'.position = r.position
  instructions : r'.instructions = r.instructions
  temporaries : r.temporaries ≤ r'.temporaries
  operations : ∃ ops, r'.operations = r.operations ++ ops ∧ m.execute ops s = some s' ∧
    (∀ o ∈ ops, o.IsPlain m.architecture r'.temporaries) ∧
    Spills ops r.temporaries r'.temporaries

/-- The step succeeds and emits plain operations; something holds of its value, of the routine
after it and of the state of the machine behind its operations. -/
def Emits (m : Machine) {α : Type} (g : Generating α) (r : Routine) (s : Machine.State)
    (Q : α → Routine → Machine.State → Prop) : Prop :=
  ∃ a r' s', g r = .ok a r' ∧ Emitted m r s r' s' ∧ Q a r' s'

variable {m : Machine} {r r' r'' : Routine} {s s' s'' : Machine.State}

theorem Emitted.refl : Emitted m r s r s :=
  ⟨rfl, rfl, rfl, Nat.le_refl _, [], by simp, rfl, by simp, .self _ _⟩

theorem Emitted.trans (h : Emitted m r s r' s') (h' : Emitted m r' s' r'' s'') :
    Emitted m r s r'' s'' := by
  obtain ⟨xs, hx, hex, hpx, hsx⟩ := h.operations
  obtain ⟨ys, hy, hey, hpy, hsy⟩ := h'.operations
  refine ⟨h'.config.trans h.config, h'.position.trans h.position,
    h'.instructions.trans h.instructions, Nat.le_trans h.temporaries h'.temporaries, xs ++ ys,
    ?_, ?_, ?_, hsx.append hsy⟩
  · rw [hy, hx, List.append_assoc]
  · rw [Machine.execute_append hex, hey]
  · simp only [List.mem_append]
    rintro o (ho | ho)
    · exact (hpx o ho).mono h'.temporaries
    · exact hpy o ho

theorem Emitted.of_eq (hc : r'.config = r.config) (hp : r'.position = r.position)
    (hi : r'.instructions = r.instructions) (ho : r'.operations = r.operations)
    (ht : r'.temporaries = r.temporaries) : Emitted m r s r' s :=
  ⟨hc, hp, hi, Nat.le_of_eq ht.symm, [], by simp [ho], rfl, by simp, ht ▸ .self _ _⟩

section Logic

variable {α β : Type} {g : Generating α} {f : α → Generating β} {a : α}
variable {Q Q' : α → Routine → Machine.State → Prop} {P : β → Routine → Machine.State → Prop}

theorem Emits.pure (h : Q a r s) : Emits m (Pure.pure a) r s Q := ⟨a, r, s, rfl, .refl, h⟩

theorem Emits.mono (h : Emits m g r s Q) (hq : ∀ a r' s', Q a r' s' → Q' a r' s') :
    Emits m g r s Q' := by
  obtain ⟨a, r', s', hg, he, h⟩ := h
  exact ⟨a, r', s', hg, he, hq a r' s' h⟩

theorem Emits.bind (h : Emits m g r s Q) (hf : ∀ a r' s', Q a r' s' → Emits m (f a) r' s' P) :
    Emits m (g >>= f) r s P := by
  obtain ⟨a, r', s', hg, he, hq⟩ := h
  obtain ⟨b, r'', s'', hf, he', hp⟩ := hf a r' s' hq
  exact ⟨b, r'', s'', by rw [bind_of_ok hg, hf], he.trans he', hp⟩

theorem Emits.step (h : g r = .ok a r) (hf : Emits m (f a) r s P) : Emits m (g >>= f) r s P := by
  obtain ⟨b, r'', s'', hf, he, hp⟩ := hf
  exact ⟨b, r'', s'', by rw [bind_of_ok h, hf], he, hp⟩

/-- A change that emits nothing, and what follows it. -/
theorem Emits.change (h : g r = .ok a r') (hc : r'.config = r.config)
    (hp : r'.position = r.position) (hi : r'.instructions = r.instructions)
    (ho : r'.operations = r.operations) (ht : r'.temporaries = r.temporaries)
    (hf : Emits m (f a) r' s P) : Emits m (g >>= f) r s P := by
  obtain ⟨b, r'', s'', hf, he, hq⟩ := hf
  exact ⟨b, r'', s'', by rw [bind_of_ok h, hf], (Emitted.of_eq hc hp hi ho ht).trans he, hq⟩

theorem Emits.silent (h : g r = .ok a r') (hc : r'.config = r.config)
    (hp : r'.position = r.position) (hi : r'.instructions = r.instructions)
    (ho : r'.operations = r.operations) (ht : r'.temporaries = r.temporaries) (hq : Q a r' s) :
    Emits m g r s Q :=
  ⟨a, r', s, h, .of_eq hc hp hi ho ht, hq⟩

/-- A plain operation. -/
theorem Emits.emit {opcode : Opcode} {xs : List Operand} {t : Machine.State}
    {Q : Unit → Routine → Machine.State → Prop} (hx : m.perform s ⟨opcode, xs⟩ = some (.next, t))
    (hp : Operation.IsPlain m.architecture r.temporaries ⟨opcode, xs⟩)
    (hq : Q () { r with operations := r.operations ++ [⟨opcode, xs⟩] } t) :
    Emits m (Generating.emit opcode xs) r s Q :=
  ⟨(), _, t, rfl, ⟨rfl, rfl, rfl, Nat.le_refl _, [⟨opcode, xs⟩], rfl,
    Machine.execute_singleton hx, by simpa using hp, .self _ _⟩, hq⟩

theorem Emits.spillThen {q : Register} {f : Nat → Generating β}
    (hf : Emits m (f r.temporaries) { r with
      temporaries := r.temporaries + 1, operations := r.operations ++ [.spill r.temporaries q] }
      (s.store (.slot (.temporary r.temporaries)) (s.registers q)) P) :
    Emits m (do
      let k ← modifyGet fun r => (r.temporaries, { r with temporaries := r.temporaries + 1 })
      Generating.emit .move [.memory (.displaced (.slot (.temporary k)) 0), .register q]
      f k) r s P := by
  obtain ⟨b, r', s', hf, he, hq⟩ := hf
  have hstored : Emitted m r s { r with
      temporaries := r.temporaries + 1, operations := r.operations ++ [.spill r.temporaries q] }
      (s.store (.slot (.temporary r.temporaries)) (s.registers q)) := by
    refine ⟨rfl, rfl, rfl, Nat.le_succ _, [.spill r.temporaries q], rfl,
      Machine.execute_singleton rfl, by simpa using .spill (Nat.lt_succ_self _) q, fun k hk hn => ?_⟩
    obtain rfl : k = r.temporaries := Nat.le_antisymm (Nat.le_of_lt_succ hn) hk
    exact ⟨q, List.mem_singleton_self _⟩
  exact ⟨b, r', s', hf, hstored.trans he, hq⟩

/-- A loop over a list, by an invariant on what is left of it. -/
theorem Emits.forM {γ : Type} {xs : List γ} {k : γ → Generating Unit}
    (I : List γ → Routine → Machine.State → Prop) (h : I xs r s)
    (hk : ∀ x rest r s, I (x :: rest) r s → Emits m (k x) r s fun _ r' s' => I rest r' s') :
    Emits m (xs.forM k) r s fun _ r' s' => I [] r' s' := by
  induction xs generalizing r s with
  | nil => exact .pure h
  | cons x xs ih => exact .bind (hk x xs r s h) fun _ r' s' h' => ih h'

end Logic

end Generating

end Codegen
