import Mathlib
import Codegen.Placement.Transfer
import Codegen.Proofs.Generating
import Codegen.Proofs.Machine.Basic

/-!
# Transfers on the machine

A home is a register or a slot, which holds a word by itself. A transfer emits one or two operations
that write the word of its source into a home, and nothing else but the scratch register and the
word below the stack pointer. Whatever way it takes, over the stack, through the scratch register or
straight into its destination, the destination has the word of the source afterwards.

* `Home`, `Handle.home?`, `Machine.State.valueAt`: homes and their words;
* `Machine.sourceWord`: the word of a home, of a constant or of a constant in the data section;
* `Machine.Serves`: machines that operations of a routine can run on;
* `Carried`: **what the machine does between two moments of a build**;
* `Handle.IsSource`: what a transfer of a format can read;
* `Machine.Writes`: a home gets a word, and the others but a few keep theirs;
* `Generating.transferToRegister_carried`, `transferToMemory_carried`: the two kinds of transfers;
* `Generating.transfer_carried`: **a transfer writes the word of its source**.
-/

namespace Codegen

/-! ## Homes -/

/-- What holds a word by itself. -/
inductive Home
  | register (register : Register)
  | slot (key : SlotKey)
deriving DecidableEq

/-- The home that a handle names. -/
def Handle.home? : Handle → Option Home
  | .register r => some (.register r)
  | .variableSlot v => some (.slot (.ofVariable v))
  | .temporarySlot k _ => some (.slot (.temporary k))
  | _ => .none

theorem Handle.home?_eq_register {h : Handle} {d : Register} :
    h.home? = some (.register d) ↔ h = .register d := by
  cases h <;> simp [Handle.home?]

theorem Handle.register?_eq_some {h : Handle} {d : Register} :
    h.register? = some d ↔ h = .register d := by
  cases h <;> simp [Handle.register?]

/-- The word of a number in a format. -/
def Number.wordAs (n : Number) (f : Format) : Word :=
  if f.isDecimal then n.toDecimal.bits.toInt64 else n.toWord

/-- Do transfers overwrite the register? -/
def Target.IsReserved (t : Target) (r : Register) : Prop := ∃ f, t.scratchFor? f = some r

namespace Machine

/-- The word in a home. -/
def State.valueAt (s : State) : Home → Word
  | .register r => s.registers r
  | .slot k => s.slots k

/-- The word that a transfer of a format reads from a handle. -/
def sourceWord (m : Machine) (s : State) (f : Format) : Handle → Word
  | .constant n => n.wordAs f
  | .constantData _ identifier => s.memory (m.constants identifier)
  | h => h.home?.elim 0 s.valueAt

/-- **The operations of a routine can run on the machine.** Its constants are in the data section,
which is apart from the word below the stack pointer: transfers over the stack overwrite that. -/
structure Serves (m : Machine) (r : Routine) (s : State) : Prop where
  architecture : m.architecture = r.architecture
  data : ∀ c ∈ r.constants, s.memory (m.constants c.identifier) = c.value.bits.toInt64
  apart : m.architecture.isX64 = true → ∀ identifier,
    m.constants identifier ≠ s.registers m.architecture.target.stackPointer - 8

/-- The stack pointer stays, and so does the memory, but for the word below it on x64. -/
structure Kept (m : Machine) (s t : State) : Prop where
  stackPointer : t.registers m.architecture.target.stackPointer =
    s.registers m.architecture.target.stackPointer
  memory : ∀ a, (m.architecture.isX64 = true →
    a ≠ s.registers m.architecture.target.stackPointer - 8) → t.memory a = s.memory a

variable {m : Machine} {r r' : Routine} {s t u : State} {f : Format} {h : Handle} {p q : Home}

theorem Kept.refl (m : Machine) (s : State) : Kept m s s := ⟨rfl, fun _ _ => rfl⟩

theorem Kept.trans (hs : Kept m s t) (ht : Kept m t u) : Kept m s u :=
  ⟨ht.stackPointer.trans hs.stackPointer, fun a ha =>
    (ht.memory a fun hx => hs.stackPointer ▸ ha hx).trans (hs.memory a ha)⟩

theorem Kept.constant (hk : Kept m s t) (hs : m.Serves r s) (identifier : String) :
    t.memory (m.constants identifier) = s.memory (m.constants identifier) :=
  hk.memory _ fun hx => hs.apart hx identifier

theorem Serves.kept (hs : m.Serves r s) (hk : Kept m s t) : m.Serves r t :=
  ⟨hs.architecture, fun c hc => (hk.constant hs _).trans (hs.data c hc), fun hx identifier =>
    hk.stackPointer ▸ hs.apart hx identifier⟩

theorem sourceWord_home (hp : h.home? = some p) : m.sourceWord s f h = s.valueAt p := by
  cases h <;> cases hp <;> rfl

theorem sourceWord_eq (hs : m.Serves r s) (hk : Kept m s t)
    (hh : ∀ p, h.home? = some p → t.valueAt p = s.valueAt p) :
    m.sourceWord t f h = m.sourceWord s f h := by
  cases h with
  | constantData n identifier => exact hk.constant hs identifier
  | register | variableSlot | temporarySlot => exact hh _ rfl
  | _ => rfl

end Machine

/-! ## Carried -/

/-- The routine has these operations more, and perhaps more slots and constants. -/
structure Extended (r r' : Routine) (ops : List Operation) : Prop where
  config : r'.config = r.config
  temporaries : r.temporaries ≤ r'.temporaries
  constants : r.constants <+: r'.constants
  operations : r'.operations = r.operations ++ ops

/-- **The machine does this between two moments of a build**, on the operations that were added. -/
def Carried (r r' : Routine) (R : Machine → Machine.State → Machine.State → Prop) : Prop :=
  ∃ ops, Extended r r' ops ∧ ∀ m s, m.Serves r' s →
    ∃ t, m.execute ops s = some t ∧ Machine.Kept m s t ∧ R m s t

variable {r r' r'' : Routine} {xs ys : List Operation}
variable {R R' : Machine → Machine.State → Machine.State → Prop}

theorem Extended.trans (h : Extended r r' xs) (h' : Extended r' r'' ys) :
    Extended r r'' (xs ++ ys) :=
  ⟨h'.config.trans h.config, Nat.le_trans h.temporaries h'.temporaries,
    h.constants.trans h'.constants, by rw [h'.operations, h.operations, List.append_assoc]⟩

theorem Extended.target (h : Extended r r' xs) : r'.target = r.target := by
  rw [Routine.target, Routine.target, Routine.architecture, Routine.architecture, h.config]

theorem Extended.serves {m : Machine} {s : Machine.State} (h : Extended r r' xs)
    (hs : m.Serves r' s) : m.Serves r s :=
  ⟨hs.architecture.trans (congrArg Config.architecture h.config),
    fun c hc => hs.data c (h.constants.subset hc), hs.apart⟩

theorem Carried.refl (r : Routine) : Carried r r fun _ s t => t = s :=
  ⟨[], ⟨rfl, Nat.le_refl _, List.prefix_refl _, by simp⟩, fun m s _ => ⟨s, rfl, .refl m s, rfl⟩⟩

theorem Carried.target (h : Carried r r' R) : r'.target = r.target := by
  obtain ⟨ops, he, -⟩ := h
  exact he.target

theorem Carried.temporaries (h : Carried r r' R) : r.temporaries ≤ r'.temporaries := by
  obtain ⟨ops, he, -⟩ := h
  exact he.temporaries

theorem Carried.trans (h : Carried r r' R) (h' : Carried r' r'' R') :
    Carried r r'' fun m s u => ∃ t, (m.Serves r s ∧ Machine.Kept m s t) ∧ R m s t ∧ R' m t u := by
  obtain ⟨xs, hx, hxs⟩ := h
  obtain ⟨ys, hy, hys⟩ := h'
  refine ⟨xs ++ ys, hx.trans hy, fun m s hs => ?_⟩
  have hs' := hy.serves hs
  obtain ⟨t, ht, hk, hR⟩ := hxs m s hs'
  obtain ⟨u, hu, hk', hR'⟩ := hys m t (hs.kept hk)
  exact ⟨u, by rw [Machine.execute_append ht, hu], hk.trans hk', t, ⟨hx.serves hs', hk⟩, hR, hR'⟩

theorem Carried.mono (h : Carried r r' R)
    (hR : ∀ m s t, m.Serves r' s → Machine.Kept m s t → R m s t → R' m s t) : Carried r r' R' := by
  obtain ⟨ops, he, hops⟩ := h
  refine ⟨ops, he, fun m s hs => ?_⟩
  obtain ⟨t, ht, hk, ht'⟩ := hops m s hs
  exact ⟨t, ht, hk, hR m s t hs hk ht'⟩

theorem Extended.carried (h : Extended r r' []) (h' : Carried r' r'' R) : Carried r r'' R := by
  obtain ⟨ops, he, hops⟩ := h'
  exact ⟨ops, h.trans he, hops⟩

end Codegen

/-! ## What transfers read and write -/

namespace Codegen

/-- A home, a constant of the class of a format, or a constant in the data section. -/
def Handle.IsSource (f : Format) : Handle → Prop
  | .constant n => f.isDecimal = true ∨ n.isDecimal = false
  | .constantData .. => True
  | h => h.home?.isSome = true

/-- The homes that a transfer of a format into a home may overwrite besides. -/
def Target.Spoils (t : Target) (f : Format) (p q : Home) : Prop :=
  ∃ k x, p = .slot k ∧ q = .register x ∧ t.scratchFor? f = some x

theorem Architecture.exists_scratch {a : Architecture} {f : Format}
    (h : (a.isX64 && !f.isDecimal) = false) :
    ∃ x, a.target.scratchFor? f = some x ∧ x.isMedia = f.isDecimal ∧
      x ≠ a.target.stackPointer := by
  unfold Target.scratchFor?
  cases hf : f.isDecimal with
  | true => cases a <;> exact ⟨_, rfl, rfl, by decide⟩
  | false =>
    cases a with
    | x64 => simp [hf, Architecture.isX64] at h
    | arm64 => exact ⟨_, rfl, rfl, by decide⟩

namespace Machine

variable {m : Machine} {s t u : State} {f : Format} {h : Handle} {p q : Home} {d : Register}
variable {x : Operand} {k : SlotKey} {w : Word} {ws : Machine → State → Word}

/-- **A home gets a word**, and all other homes keep theirs, but for those that are spoiled. -/
def Writes (p : Home) (spoiled : Home → Prop) (w : Machine → State → Word) (m : Machine)
    (s t : State) : Prop :=
  t.valueAt p = w m s ∧ ∀ q, q ≠ p → ¬ spoiled q → t.valueAt q = s.valueAt q

@[simp]
theorem valueAt_set (s : State) (d : Register) (w : Word) (q : Home) :
    (s.set d w).valueAt q = if q = .register d then w else s.valueAt q := by
  cases q with
  | register r => simp [State.valueAt, State.set, Function.update_apply]
  | slot k => simp [State.valueAt, State.set]

@[simp]
theorem valueAt_store_slot (s : State) (k : SlotKey) (w : Word) (q : Home) :
    (s.store (.slot k) w).valueAt q = if q = .slot k then w else s.valueAt q := by
  cases q with
  | register r => simp [State.valueAt, State.store]
  | slot j => simp [State.valueAt, State.store, Function.update_apply]

theorem writes_set {spoiled : Home → Prop} (h : ws m s = w) :
    Writes (.register d) spoiled ws m s (s.set d w) := by
  refine ⟨by simp [h], fun q hq _ => by simp [hq]⟩

theorem writes_store {spoiled : Home → Prop} (h : ws m s = w) :
    Writes (.slot k) spoiled ws m s (s.store (.slot k) w) := by
  refine ⟨by simp [h], fun q hq _ => by simp [hq]⟩

theorem kept_set (hd : d ≠ m.architecture.target.stackPointer) : Kept m s (s.set d w) :=
  ⟨State.set_registers_of_ne hd.symm, fun _ _ => rfl⟩

theorem kept_store : Kept m s (s.store (.slot k) w) := ⟨rfl, fun _ _ => rfl⟩

/-! ## Single operations -/

theorem perform_moveInto (hx : m.read s x = some w) :
    m.perform s ⟨.move, [.register d, x]⟩ = some (.next, s.set d w) := by
  simp [perform, transfer, hx]

theorem location?_slot (hk : ∀ identity, k ≠ .inline identity) :
    m.location? s (.displaced (.slot k) 0) = some (.slot k) := by
  cases k with
  | inline identity => exact absurd rfl (hk identity)
  | _ => rfl

theorem perform_store (hk : ∀ identity, k ≠ .inline identity) :
    m.perform s ⟨.move, [.memory (.displaced (.slot k) 0), .register d]⟩ =
      some (.next, s.store (.slot k) (s.registers d)) := by
  simp [perform, transfer, location?_slot hk]

theorem perform_storeImmediate (hx : m.architecture.isX64 = true)
    (hk : ∀ identity, k ≠ .inline identity) :
    m.perform s ⟨.move, [.memory (.displaced (.slot k) 0), .immediate w]⟩ =
      some (.next, s.store (.slot k) w) := by
  simp [perform, transfer, location?_slot hk, hx]

theorem read_slot (hk : ∀ identity, k ≠ .inline identity) :
    m.read s (.memory (.displaced (.slot k) 0)) = some (s.slots k) := by
  simp [read, location?_slot hk, State.fetch]

theorem read_constant (m : Machine) (s : State) (identifier : String) :
    m.read s (.memory (.displaced (.constant identifier) 0)) =
      some (s.memory (m.constants identifier)) := by
  simp [read, location?, slotOf?, address?, baseOf?, MemoryOperand.displaced, State.fetch]

/-- A word goes over the stack from memory to a slot; the word below the stack pointer is lost. -/
theorem execute_viaStack {o : MemoryOperand} (hx : m.architecture.isX64 = true)
    (ho : m.read s (.memory o) = some w) (hk : ∀ identity, k ≠ .inline identity) :
    ∃ t, m.execute [⟨.push, [.memory o]⟩, ⟨.pop, [.memory (.displaced (.slot k) 0)]⟩] s = some t ∧
      Kept m s t ∧ ∀ q, t.valueAt q = if q = .slot k then w else s.valueAt q := by
  have hpush : m.perform s ⟨.push, [.memory o]⟩ = some (.next, m.pushWords s 8 [w]) := by
    simp [perform, stack, hx, ho]
  generalize hsp : m.architecture.target.stackPointer = sp at *
  have hlow : (m.pushWords s 8 [w]).registers sp = s.registers sp - 8 := by
    simp [pushWords, hsp]
  have hmemory (a : Word) : (m.pushWords s 8 [w]).memory a =
      if a = s.registers sp - 8 then w else s.memory a := by
    simp [pushWords, hsp, State.store, State.set, Function.update_apply]
  have hpop : m.perform (m.pushWords s 8 [w]) ⟨.pop, [.memory (.displaced (.slot k) 0)]⟩ =
      some (.next, ((m.pushWords s 8 [w]).set sp (s.registers sp)).store (.slot k) w) := by
    simp [perform, stack, hx, hsp, location?_slot hk, hlow, hmemory]
  refine ⟨_, by rw [execute_cons hpush, execute_singleton hpop], ⟨?_, fun a ha => ?_⟩, fun q => ?_⟩
  · simp [hsp]
  · rw [hsp] at ha
    exact (hmemory a).trans (if_neg (ha hx))
  · rw [valueAt_store_slot, valueAt_set]
    congr 1
    split
    next h => rw [h]; rfl
    next h =>
      cases q with
      | slot j => rfl
      | register r =>
        have hr : r ≠ sp := fun hr => h (congrArg Home.register hr)
        simp [pushWords, hsp, State.valueAt, State.set_registers_of_ne hr]

end Machine

/-! ## Steps of a build -/

namespace Generating

open Machine

variable {r r' : Routine} {f : Format} {h : Handle} {k : SlotKey} {d : Register} {p : Home}

theorem emit_carried {c : Opcode} {xs : List Operand} {R : Machine → State → State → Prop}
    (h : ∀ m s, m.Serves r s → ∃ t, m.perform s ⟨c, xs⟩ = some (.next, t) ∧ Kept m s t ∧ R m s t) :
    Runs (emit c xs) r fun _ r' => Carried r r' R := by
  refine .of_eq rfl ⟨[⟨c, xs⟩], ⟨rfl, Nat.le_refl _, List.prefix_refl _, rfl⟩, fun m s hs => ?_⟩
  obtain ⟨t, ht, hk, hR⟩ := h m s ⟨hs.architecture, hs.data, hs.apart⟩
  exact ⟨t, execute_singleton ht, hk, hR⟩

theorem constantData_spec (n : Number) :
    Runs (constantData n) r fun identifier r' => Extended r r' [] ∧
      ∀ (m : Machine) (s : State), m.Serves r' s →
        s.memory (m.constants identifier) = n.bits.toInt64 := by
  cases hc : r.constants.find? (·.value == n) with
  | some c =>
    have heq : constantData n r = .ok c.identifier r := by
      simp [constantData, modifyGet, MonadStateOf.modifyGet, EStateM.modifyGet, hc]
    refine .of_eq heq ⟨⟨rfl, Nat.le_refl _, List.prefix_refl _, by simp⟩, fun m s hs => ?_⟩
    have hn : (c.value == n) = true :=
      List.find?_some (p := fun c : DataConstant => c.value == n) hc
    rw [← beq_iff_eq.mp hn]
    exact hs.data c (List.mem_of_find?_eq_some hc)
  | none =>
    have heq : constantData n r = .ok (r.symbol ++ s!"_C{r.constants.length}")
        { r with
          constants := r.constants ++ [⟨r.symbol ++ s!"_C{r.constants.length}", n, .qword⟩] } := by
      simp [constantData, modifyGet, MonadStateOf.modifyGet, EStateM.modifyGet, hc]
    refine .of_eq heq ⟨⟨rfl, Nat.le_refl _, List.prefix_append .., by simp⟩, fun m s hs => ?_⟩
    exact hs.data ⟨_, n, .qword⟩ (List.mem_append_right _ (List.mem_singleton_self _))

/-! ## Memory operands -/

theorem not_inline_of_home? (h' : h.home? = some (.slot k)) (identity : String) :
    k ≠ .inline identity := by
  cases h <;> cases h' <;> exact SlotKey.noConfusion

theorem memoryOperand_slot (h' : h.home? = some (.slot k)) :
    memoryOperand h r = .ok (.displaced (.slot k) 0) r := by
  cases h <;> cases h' <;> rfl

theorem memorySource_spec (hh : h.IsSource f) (hr : h.register? = none)
    (hf : f.isDecimal = false) :
    Runs (memorySource h) r fun o r' => Extended r r' [] ∧
      ∀ (m : Machine) (s : State), m.Serves r' s →
        m.read s (.memory o) = some (m.sourceWord s f h) := by
  have hsame : Extended r r [] := ⟨rfl, Nat.le_refl _, List.prefix_refl _, by simp⟩
  cases h with
  | constant n =>
    have hn : n.bits.toInt64 = n.wordAs f := by
      cases n with
      | integer w => simp [Number.wordAs, hf, Number.bits, Number.toWord]
      | decimal x => simp [Handle.IsSource, hf, Number.isDecimal] at hh
    refine .bind (constantData_spec n) fun identifier r' h => .pure ⟨h.1, fun m s hs => ?_⟩
    rw [read_constant, h.2 m s hs, hn]
    rfl
  | constantData n identifier =>
    exact .of_eq rfl ⟨hsame, fun m s _ => read_constant m s identifier⟩
  | variableSlot v =>
    exact .of_eq rfl ⟨hsame, fun m s _ => read_slot (by simp)⟩
  | temporarySlot j size =>
    exact .of_eq rfl ⟨hsame, fun m s _ => read_slot (by simp)⟩
  | register => cases hr
  | _ => simp [Handle.IsSource, Handle.home?] at hh

/-! ## Transfers into a register -/

/-- A transfer into a register by one move. -/
theorem move_carried {x : Operand} {ws : Machine → State → Word} {spoiled : Home → Prop}
    (hd : d ≠ r.target.stackPointer)
    (hx : ∀ m s, m.Serves r s → m.read s x = some (ws m s)) :
    Runs (emit .move [.register d, x]) r fun _ r' =>
      Carried r r' (Writes (.register d) spoiled ws) :=
  emit_carried fun m s hs => ⟨_, perform_moveInto (hx m s hs),
    kept_set (hs.architecture ▸ hd), writes_set rfl⟩

/-- **A transfer into a register** writes it, and nothing else. -/
theorem transferToRegister_carried (hh : h.IsSource f) (hd : d.isMedia = f.isDecimal)
    (hsp : d ≠ r.target.stackPointer) :
    Runs (transferToRegister d h f) r fun _ r' =>
      Carried r r' (Writes (.register d) (fun _ => False) fun m s => m.sourceWord s f h) := by
  cases h with
  | register other =>
    change Runs (if other ≠ d then emit .move [.register d, .register other] else pure ()) r _
    split
    next => exact move_carried hsp fun m s _ => rfl
    next he =>
      obtain rfl := Decidable.of_not_not he
      exact .of_eq rfl ((Carried.refl r).mono fun m s t _ _ ht => ht ▸ ⟨rfl, fun _ _ _ => rfl⟩)
  | constant n =>
    change Runs (transferConstant d n) r _
    unfold transferConstant
    split
    next hmedia =>
      have hf : f.isDecimal = true := hd ▸ hmedia
      refine .bind (constantData_spec _) fun identifier r₁ h₁ => ?_
      refine .mono (move_carried (h₁.1.target ▸ hsp) fun m s hs => ?_) fun _ _ => h₁.1.carried
      rw [read_constant, h₁.2 m s hs]
      simp [sourceWord, Number.wordAs, hf, Number.bits]
    next hmedia =>
      have hf : f.isDecimal = false := by simpa [hd] using hmedia
      refine move_carried hsp fun m s _ => ?_
      simp [Machine.read, sourceWord, Number.wordAs, hf]
  | variableSlot v => exact move_carried hsp fun m s _ => read_slot (by simp)
  | temporarySlot j size => exact move_carried hsp fun m s _ => read_slot (by simp)
  | constantData n identifier => exact move_carried hsp fun m s _ => read_constant m s identifier
  | _ => simp [Handle.IsSource, Handle.home?] at hh

/-! ## Transfers into a slot -/

theorem isX64_of_serves {m : Machine} {s : State} (hs : m.Serves r s) :
    m.architecture.isX64 = r.isX64 := by
  rw [hs.architecture]
  rfl

/-- A transfer of a word over the stack. -/
theorem viaStack_carried (hk : ∀ identity, k ≠ .inline identity) (hh : h.IsSource f)
    (hr : h.register? = none) (hf : f.isDecimal = false) (hx : r.isX64 = true)
    {spoiled : Home → Prop} :
    Runs (do
      let o ← memorySource h
      emit .push [.memory o]
      emit .pop [.memory (.displaced (.slot k) 0)]) r fun _ r' =>
        Carried r r' (Writes (.slot k) spoiled fun m s => m.sourceWord s f h) := by
  refine .bind (memorySource_spec hh hr hf) fun o r₁ h₁ => ?_
  refine .of_eq rfl (h₁.1.carried
    ⟨[⟨.push, [.memory o]⟩, ⟨.pop, [.memory (.displaced (.slot k) 0)]⟩],
      ⟨rfl, Nat.le_refl _, List.prefix_refl _, by simp⟩, fun m s hs => ?_⟩)
  have hs₁ : m.Serves r₁ s := ⟨hs.architecture, hs.data, hs.apart⟩
  have hx₁ : m.architecture.isX64 = true :=
    (isX64_of_serves (h₁.1.serves hs₁)).trans hx
  obtain ⟨t, ht, hkept, hvalue⟩ := execute_viaStack hx₁ (h₁.2 m s hs₁) hk
  exact ⟨t, ht, hkept, by rw [hvalue, if_pos rfl], fun q hq _ => by rw [hvalue, if_neg hq]⟩

/-- A transfer through the scratch register. -/
theorem viaRegister_carried (hk : ∀ identity, k ≠ .inline identity) (hh : h.IsSource f)
    (hx : (r.isX64 && !f.isDecimal) = false) :
    Runs (do
      let x ← reservedScratch f .noScratch
      transferToRegister x h f
      emit .move [.memory (.displaced (.slot k) 0), .register x]) r fun _ r' =>
        Carried r r' (Writes (.slot k) (r.target.Spoils f (.slot k))
          fun m s => m.sourceWord s f h) := by
  obtain ⟨x, hscratch, hmedia, hsp⟩ := Architecture.exists_scratch hx
  have heq : reservedScratch f .noScratch r = .ok x r := by
    change (required _ (r.target.scratchFor? f)) r = _
    rw [show r.target.scratchFor? f = some x from hscratch]
    rfl
  refine .step heq (.bind (transferToRegister_carried hh hmedia hsp) fun _ r₁ h₁ => ?_)
  refine .mono (emit_carried (R := Writes (.slot k) (fun _ => False) fun _ s => s.registers x)
    fun m s _ => ⟨_, perform_store hk, kept_store, writes_store rfl⟩) fun _ r₂ h₂ => ?_
  refine (h₁.trans h₂).mono fun m s u _ _ => ?_
  rintro ⟨t, -, ⟨hword, hrest⟩, hslot, hothers⟩
  refine ⟨hslot.trans hword, fun q hq hspoiled => ?_⟩
  rw [hothers q hq id, hrest q (fun hqx => hspoiled ⟨k, x, rfl, hqx, hscratch⟩) id]

/-- **A transfer into a slot** writes it, and the scratch register at most. -/
theorem transferToMemory_carried (hk : ∀ identity, k ≠ .inline identity) (hh : h.IsSource f) :
    Runs (transferToMemory (.displaced (.slot k) 0) h f) r fun _ r' =>
      Carried r r' (Writes (.slot k) (r.target.Spoils f (.slot k))
        fun m s => m.sourceWord s f h) := by
  have memory (hr : h.register? = none) : Runs
      (if (r.isX64 && !f.isDecimal) = true then do
        let o ← memorySource h
        emit .push [.memory o]
        emit .pop [.memory (.displaced (.slot k) 0)]
      else do
        let x ← reservedScratch f .noScratch
        transferToRegister x h f
        emit .move [.memory (.displaced (.slot k) 0), .register x]) r fun _ r' =>
          Carried r r' (Writes (.slot k) (r.target.Spoils f (.slot k))
            fun m s => m.sourceWord s f h) := by
    split
    next hwords =>
      rw [Bool.and_eq_true, Bool.not_eq_true'] at hwords
      exact viaStack_carried hk hh hr hwords.2 hwords.1
    next hwords => exact viaRegister_carried hk hh (Bool.not_eq_true _ ▸ hwords)
  refine .step (a := r) rfl ?_
  cases h with
  | register other =>
    exact emit_carried fun m s _ => ⟨_, perform_store hk, kept_store, writes_store rfl⟩
  | constant n =>
    cases n with
    | decimal y => exact memory rfl
    | integer w =>
      change Runs (if (_ && Word.fitsIn w 32) = true then _ else if _ then _ else _) r _
      split
      next hfits =>
        rw [Bool.and_eq_true, Bool.and_eq_true, Bool.not_eq_true'] at hfits
        refine emit_carried fun m s hs => ⟨_, perform_storeImmediate
          ((isX64_of_serves hs).trans hfits.1.1) hk, kept_store, writes_store ?_⟩
        simp [sourceWord, Number.wordAs, hfits.1.2, Number.toWord]
      next => exact memory rfl
  | variableSlot v => exact memory rfl
  | temporarySlot j size => exact memory rfl
  | constantData n identifier => exact memory rfl
  | _ => simp [Handle.IsSource, Handle.home?] at hh

/-! ## Transfers -/

/-- **A transfer writes the word of its source**, and of all other homes the scratch register at
most. -/
theorem transfer_carried {destination : Handle} (hp : destination.home? = some p)
    (hd : ∀ d, p = .register d → d.isMedia = f.isDecimal ∧ d ≠ r.target.stackPointer)
    (hh : h.IsSource f) :
    Runs (transfer destination h f) r fun _ r' =>
      Carried r r' (Writes p (r.target.Spoils f p) fun m s => m.sourceWord s f h) := by
  cases p with
  | register d =>
    obtain rfl := Handle.home?_eq_register.mp hp
    refine .mono (transferToRegister_carried hh (hd d rfl).1 (hd d rfl).2) fun _ r' h' =>
      h'.mono fun m s t _ _ ht => ⟨ht.1, fun q hq _ => ht.2 q hq id⟩
  | slot k =>
    have heq : transfer destination h f =
        (do transferToMemory (← memoryOperand destination) h f) := by
      cases destination <;> cases hp <;> rfl
    rw [heq]
    exact .step (memoryOperand_slot hp) (transferToMemory_carried (not_inline_of_home? hp) hh)

end Generating

end Codegen
