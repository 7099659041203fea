import Codegen.Proofs.Frame.Enclosed
import Codegen.Proofs.Frame.Layout

/-!
# The discipline of frames

Whatever the body of a function does inside the rules, the function keeps what callees keep. The
body may write registers that the target hands out, memory outside the saved registers, and slots;
it pushes only what it pops at once. Each of its operations leaves the function in its frame, a
jump goes to another operation of the body, and a return is an epilogue, which leads out.

* `Frame.machine`: **the machine**, and the bytes that a body may write;
* `Paired`, `IsDisciplined`: the rules for bodies;
* `Frame.Keeps`: what an operation of a body should leave alone;
* `Frame.Keeps.of_performs`: **an operation that does not move the stack pointer leaves it alone**.
-/

namespace Codegen

open ByteMachine

/-! ## The rules for bodies -/

/-- The registers of a target that operations may write. -/
def Target.IsUsable (t : Target) (r : Register) : Prop :=
  t.allocatable.contains r = true ∨ t.volatile.contains r = true ∨ t.scratch? = some r ∨
    t.mediaScratch = r

instance (t : Target) (r : Register) : Decidable (t.IsUsable r) :=
  inferInstanceAs (Decidable (_ ∨ _ ∨ _ ∨ _))

namespace Architecture

variable {a : Architecture} {r : Register}

theorem stackPointer_not_usable : ¬ a.target.IsUsable a.target.stackPointer := by
  cases a <;> decide +kernel

theorem spared_of_usable (hr : r ∈ a.calleeSaved) (hu : a.target.IsUsable r) :
    a.spared.contains r = true := by
  revert r
  cases a <;> decide +kernel

end Architecture

/-- Does the second operation take from the stack what the first one put there? -/
def Matches (c d : Opcode) : Prop := c = .push ∧ d = .pop ∨ c = .savePair ∧ d = .restorePair

instance (c d : Opcode) : Decidable (Matches c d) := inferInstanceAs (Decidable (_ ∨ _))

/-- Does the operation move the stack pointer? -/
def MovesStack (c : Opcode) : Prop := c ∈ [.push, .pop, .savePair, .restorePair]

instance (c : Opcode) : Decidable (MovesStack c) := inferInstanceAs (Decidable (_ ∈ _))

/-- **Pushes and pops come in adjacent pairs.** -/
inductive Paired : List Operation → Prop
  | nil : Paired []
  | pair {o p rest} (h : Matches o.opcode p.opcode) (hr : Paired rest) : Paired (o :: p :: rest)
  | cons {o rest} (h : ¬ MovesStack o.opcode) (hr : Paired rest) : Paired (o :: rest)

theorem Paired.of_append {before after : List Operation} {o : Operation}
    (h : Paired (before ++ o :: after)) (ho : ¬ MovesStack o.opcode) : Paired (o :: after) := by
  generalize hos : before ++ o :: after = os at h
  induction h generalizing before with
  | nil => simp at hos
  | pair hm hr ih =>
    match before, hos with
    | [], hos =>
      obtain ⟨rfl, -⟩ := List.cons.inj hos
      rcases hm with ⟨h, -⟩ | ⟨h, -⟩ <;> simp [h, MovesStack] at ho
    | [_], hos =>
      obtain ⟨-, hos⟩ := List.cons.inj hos
      obtain ⟨rfl, -⟩ := List.cons.inj hos
      rcases hm with ⟨-, h⟩ | ⟨-, h⟩ <;> simp [h, MovesStack] at ho
    | _ :: _ :: before, hos => exact ih (List.cons.inj (List.cons.inj hos).2).2
  | cons hm hr ih =>
    match before, hos with
    | [], hos =>
      obtain ⟨rfl, rfl⟩ := List.cons.inj hos
      exact .cons hm hr
    | _ :: before, hos => exact ih (List.cons.inj hos).2

/-- **The rules for the body of a function**: the registers that are operands, not parts of
addresses, are those that the target hands out, and what is pushed is popped at once. -/
structure IsDisciplined (a : Architecture) (body : List Operation) : Prop where
  usable : ∀ o ∈ body, ∀ r, .register r ∈ o.operands → a.target.IsUsable r
  paired : Paired body

namespace Frame

/-! ## The machine -/

/-- **The machine that runs a function with a frame**, entered with the stack pointer at an address.
Callees keep what they should, but may change the link register. Bytes may be written outside the
saved registers, and wherever the slots are. -/
def machine (f : Frame) (config : Config) (instructions : List Instruction)
    (constants : String → BitVec 64) (top : BitVec 64) : ByteMachine where
  stackPointer := config.architecture.target.stackPointer
  constants
  kept r := r ∈ config.architecture.calleeSaved ∧ r ≠ Target.linkRegister
  writable b :=
    ¬ Within (top - .ofNat 64 (f.savedBytes config)) (f.savedBytes config) b ∨
      ∃ k offset, (k, offset) ∈ f.offsets ∧
        Within (top - .ofNat 64 (f.savedBytes config) - .ofNat 64 f.size + .ofNat 64 offset)
          (slotRoom instructions k) b

variable {f : Frame} {config : Config} {instructions : List Instruction} {body : List Operation}
  {constants : String → BitVec 64} {top : BitVec 64} {s₀ s t u : State} {r : Register}

theorem not_saved_of_writable (h : layout config instructions body = .ok f) {b : BitVec 64}
    (hb : (f.machine config instructions constants top).writable b) :
    ¬ Within (top - .ofNat 64 (f.savedBytes config)) (f.savedBytes config) b := by
  rcases hb with hb | ⟨k, offset, hk, hb⟩
  · exact hb
  · have hroom := slot_within_size h hk
    have hsize := (isSound_of_layout h).size
    have hsaved := savedBytes_le (isSound_of_layout h)
    generalize f.savedBytes config = bytes at *
    unfold Within at *
    bv_omega

theorem writable_slot {k : SlotKey} {offset : Nat} (hk : (k, offset) ∈ f.offsets) {b : BitVec 64}
    (hb : Within (top - .ofNat 64 (f.savedBytes config) - .ofNat 64 f.size + .ofNat 64 offset) 8 b) :
    (f.machine config instructions constants top).writable b :=
  .inr ⟨k, offset, hk, hb.mono (word_le_slotRoom instructions k)⟩

/-! ## What an operation leaves alone -/

/-- **What an operation of a body leaves alone.** -/
structure Keeps (f : Frame) (config : Config) (top : BitVec 64) (s t : State) : Prop where
  stackPointer : t.registers config.architecture.target.stackPointer =
    s.registers config.architecture.target.stackPointer
  memory : ∀ b, Within (top - .ofNat 64 (f.savedBytes config)) (f.savedBytes config) b →
    t.memory b = s.memory b
  registers : ∀ r ∈ config.architecture.calleeSaved, r ∉ (f.stacked config).flatten →
    t.registers r = s.registers r

theorem Keeps.refl : f.Keeps config top s s := ⟨rfl, fun _ _ => rfl, fun _ _ _ => rfl⟩

theorem Keeps.trans (h₁ : f.Keeps config top s t) (h₂ : f.Keeps config top t u) :
    f.Keeps config top s u where
  stackPointer := h₂.stackPointer.trans h₁.stackPointer
  memory b hb := (h₂.memory b hb).trans (h₁.memory b hb)
  registers r hr hs := (h₂.registers r hr hs).trans (h₁.registers r hr hs)

theorem Entered.of_keeps (h : f.Entered config s₀ s)
    (hk : f.Keeps config (s₀.registers config.architecture.target.stackPointer) s t) :
    f.Entered config s₀ t where
  stackPointer := hk.stackPointer.trans h.stackPointer
  saved := h.saved.congr (fun _ hrs => (isChunk_of_mem_stacked hrs).2) hk.memory
  kept r hr hs := (hk.registers r hr hs).trans (h.kept r hr hs)

/-- The registers that the operations of a body may write: those that callees keep are saved. -/
def MayWrite (f : Frame) (config : Config) (r : Register) : Prop :=
  r ≠ config.architecture.target.stackPointer ∧
    (r ∈ config.architecture.calleeSaved → r ∈ (f.stacked config).flatten)

theorem mayWrite_of_usable (h : layout config instructions body = .ok f) {o : Operation}
    (ho : o ∈ body) (hr : .register r ∈ o.operands) (hu : config.architecture.target.IsUsable r) :
    f.MayWrite config r := by
  refine ⟨?_, fun hkept => ?_⟩
  · rintro rfl
    exact Architecture.stackPointer_not_usable hu
  · have hsaved : r ∈ f.saved := (mem_saved_iff h).mpr
      ⟨⟨o, ho, List.mem_flatMap.mpr ⟨_, hr, List.mem_singleton_self r⟩⟩,
        Architecture.spared_of_usable hkept hu⟩
    rw [stacked, List.flatten_append, List.mem_append]
    left
    obtain ⟨rs, hrs, hmem⟩ := List.mem_flatten.mp (mem_flatten_chunks.mpr hsaved)
    exact List.mem_flatten.mpr ⟨rs, List.mem_reverse.mpr hrs, hmem⟩

theorem Keeps.set {w : BitVec 64} (hr : f.MayWrite config r) :
    f.Keeps config top s (s.set r w) where
  stackPointer := State.set_registers_of_ne hr.1.symm
  memory _ _ := rfl
  registers _ hq hs := State.set_registers_of_ne fun he => hs (he ▸ hr.2 (he ▸ hq))

theorem linkRegister_mem_stacked (h : Target.linkRegister ∈ config.architecture.calleeSaved) :
    Target.linkRegister ∈ (f.stacked config).flatten := by
  obtain ⟨a, debug, _⟩ := config
  cases a
  · revert h
    show Target.linkRegister ∈ Architecture.x64.calleeSaved → _
    exact fun h => absurd h (by decide)
  · simp [stacked, leading]

section Body

variable (hl : layout config instructions body = .ok f) {o : Operation}
include hl

theorem Keeps.of_writes {x : Operand} {w : BitVec 64}
    (hx : ∀ r, x = .register r → f.MayWrite config r)
    (h : (f.machine config instructions constants top).Writes u x w s t) :
    f.Keeps config top s t := by
  cases h with
  | register => exact .set (hx _ rfl)
  | memory ha hw =>
    refine ⟨rfl, fun b hb => ?_, fun _ _ _ => rfl⟩
    exact State.store_memory_of_not_within fun hb' => not_saved_of_writable hl (hw b hb') hb

theorem Keeps.of_performs (ho : ¬ MovesStack o.opcode)
    (hr : ∀ r, .register r ∈ o.operands → f.MayWrite config r)
    (h : (f.machine config instructions constants top).Performs o s t) :
    f.Keeps config top s t := by
  have first {x : Operand} {xs : List Operand}
      (hr : ∀ r, .register r ∈ x :: xs → f.MayWrite config r) :
      ∀ r, x = .register r → f.MayWrite config r := fun r hx => hr r (hx ▸ List.mem_cons_self)
  cases h with
  | move _ hd | sumInto _ _ _ _ hd | sum _ _ _ _ hd | free _ hd => exact .of_writes hl (first hr) hd
  | exchange _ _ h₁ h₂ =>
    exact (of_writes hl (first hr) h₁).trans
      (.of_writes hl (first fun r hx => hr r (List.mem_cons_of_mem _ hx)) h₂)
  | push | pop | savePair | restorePair => exact absurd (by simp [MovesStack]) ho
  | compare | label | stay => exact .refl
  | call hp hr hm =>
    refine ⟨hp, fun b hb => hm b fun hw => not_saved_of_writable hl hw hb, fun r hkept hs => ?_⟩
    refine hr r ⟨hkept, ?_⟩
    rintro rfl
    exact hs (linkRegister_mem_stacked hkept)

/-- Pushing in the frame and popping at once leaves the frame alone. -/
theorem Keeps.of_popped {s₀ : State} {bytes : Nat} {ws : List (BitVec 64)} {rs : List Register}
    (h : f.Entered config s₀ s) (hb : bytes ≤ 16) (hw : 8 * ws.length ≤ bytes)
    (hr : ∀ r ∈ rs, f.MayWrite config r) :
    f.Keeps config (s₀.registers config.architecture.target.stackPointer) s
      ((s.pushed config.architecture.target.stackPointer bytes ws).popped
        config.architecture.target.stackPointer bytes rs) where
  stackPointer := by
    rw [popped_stackPointer fun hmem => (hr _ hmem).1 rfl, pushed_stackPointer,
      BitVec.sub_add_cancel]
  memory b hsaved := by
    have hsize := (isSound_of_layout hl).size
    have hbytes := savedBytes_le (isSound_of_layout hl)
    rw [popped_memory, pushed_memory hw]
    rw [h.stackPointer]
    generalize f.savedBytes config = n at *
    unfold Within at *
    bv_omega
  registers r hkept hs := by
    have hne : r ≠ config.architecture.target.stackPointer := fun he =>
      Architecture.stackPointer_not_calleeSaved (he ▸ hkept)
    rw [popped_registers_of_not_mem (fun hmem => hs ((hr r hmem).2 hkept)) hne,
      pushed_registers hne]

end Body

end Frame

end Codegen
