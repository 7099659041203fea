import Codegen.Proofs.Placement.Simultaneous

/-!
# Values that change their homes

While an instruction is built, values get other handles and registers other owners; the cells of the
values stay as they are otherwise. `Works` follows a step of a build and the machine side by side:
the operations that the step adds take the machine from one state to the other.

* `Arena.Rehomed`: **cells with other handles**;
* `Arena.exists_rehomed`: a new handle goes to a value and to those that it sends changes to;
* `Routine.Ready`: the tables of a routine that is being built;
* `Worked`, `Works`: **steps of a build, next to the machine**;
* `Works.uniform`: the operations of a step do not depend on the machine;
* `works_spill`: a register is freed, and the value in it is stored if it is needed.
-/

namespace Codegen

/-! ## Handles -/

/-- A cell without its handle. -/
def Cell.bare (c : Cell) : Cell := { c with handle := .none }

namespace Arena

variable {a b c : Arena} {v w : ValueId} {p : Int}

/-- **The cells are the same, but for their handles.** -/
def Rehomed (a b : Arena) : Prop := ∀ v, (b.cell? v).map Cell.bare = (a.cell? v).map Cell.bare

namespace Rehomed

theorem refl (a : Arena) : a.Rehomed a := fun _ => rfl

theorem trans (h : a.Rehomed b) (h' : b.Rehomed c) : a.Rehomed c := fun v => (h' v).trans (h v)

theorem symm (h : a.Rehomed b) : b.Rehomed a := fun v => (h v).symm

theorem cell (h : a.Rehomed b) {x : Cell} (hx : a.cell? v = some x) :
    b.cell? v = some { x with handle := b.handleAt v } := by
  have hv := h v
  rw [hx, Option.map_some, Option.map_eq_some_iff] at hv
  obtain ⟨y, hy, hxy⟩ := hv
  obtain ⟨handle, format, metadata, lifetime, instruction?, edges⟩ := y
  simp only [Cell.bare, Cell.mk.injEq] at hxy
  rw [handleAt_eq hy, hy]
  simp [hxy]

theorem cell?_isSome (h : a.Rehomed b) (v : ValueId) : (b.cell? v).isSome = (a.cell? v).isSome := by
  have := congrArg Option.isSome (h v)
  simpa only [Option.isSome_map] using this

theorem size (h : a.Rehomed b) : b.size = a.size := by
  have exists_iff (c : Arena) (v : ValueId) : (c.cell? v).isSome = true ↔ v < c.size :=
    ⟨fun hv => cell?_lt (Option.get_mem hv), fun hv => by
      obtain ⟨x, hx⟩ := exists_cell hv
      rw [hx]
      rfl⟩
  have same (v : ValueId) : v < b.size ↔ v < a.size := by
    rw [← exists_iff, ← exists_iff, h.cell?_isSome]
  exact Nat.le_antisymm (Nat.not_lt.mp fun h => Nat.lt_irrefl _ ((same _).mp h))
    (Nat.not_lt.mp fun h => Nat.lt_irrefl _ ((same _).mpr h))

theorem receivers (h : a.Rehomed b) (v : ValueId) : b.receivers v = a.receivers v := by
  unfold Arena.receivers
  cases hv : a.cell? v with
  | some x => rw [h.cell hv]
  | none =>
    have := h.cell?_isSome v
    rw [hv, Option.isSome_none, Option.isSome_eq_false_iff, Option.isNone_iff_eq_none] at this
    rw [this]

theorem covers (h : a.Rehomed b) : b.Covers v p ↔ a.Covers v p := by
  have mono {a b : Arena} (h : a.Rehomed b) : a.Covers v p → b.Covers v p := by
    rintro ⟨x, hx, hp⟩
    exact ⟨_, h.cell hx, hp⟩
  exact ⟨mono h.symm, mono h⟩

end Rehomed

theorem covers_iff {x : Cell} (hx : a.cell? v = some x) :
    a.Covers v p ↔ x.lifetime.covers p = true :=
  ⟨fun ⟨y, hy, h⟩ => by rwa [Option.some.inj (hx.symm.trans hy)], fun h => ⟨x, hx, h⟩⟩

theorem exists_updateAll_handle {vs : List ValueId} (hv : ∀ v ∈ vs, v < a.size) (h : Handle) :
    ∃ b, a.updateAll vs (fun c => { c with handle := h }) = .ok b ∧ a.Rehomed b ∧
      ∀ w, b.handleAt w = if w ∈ vs then h else a.handleAt w := by
  induction vs generalizing a with
  | nil => exact ⟨a, rfl, .refl a, by simp⟩
  | cons v vs ih =>
    rw [List.forall_mem_cons] at hv
    have hfirst : a.Rehomed (a.withHandle v h) := fun w => by
      rw [cell?_withHandle, Option.map_map]
      congr 1
      funext c
      simp only [Function.comp]
      split <;> rfl
    obtain ⟨b, hb, hrest, hhandles⟩ :=
      ih (a := a.withHandle v h) (by simpa only [hfirst.size] using hv.2)
    refine ⟨b, ?_, hfirst.trans hrest, fun w => ?_⟩
    · rw [updateAll, List.foldlM_cons, update, if_pos hv.1]
      exact hb
    · rw [hhandles, handleAt_withHandle hv.1]
      by_cases hw : w = v <;> simp [hw]

/-- **A new handle** goes to the value and to the values that it sends its changes to. -/
theorem exists_rehomed (hv : v < a.size) (hr : ∀ w ∈ a.receivers v, w < a.size) (h : Handle) :
    ∃ b, a.setHandle v h false = .ok b ∧ a.Rehomed b ∧
      ∀ w, b.handleAt w = if w = v ∨ w ∈ a.receivers v then h else a.handleAt w := by
  have haudience : ∀ w ∈ a.audience v false, w < a.size := by
    simpa [audience] using ⟨hv, hr⟩
  obtain ⟨b, hb, hcells, hhandles⟩ := exists_updateAll_handle haudience h
  exact ⟨b, hb, hcells, by simpa [audience] using hhandles⟩

end Arena

namespace RegisterFile

variable {f g : RegisterFile}

theorem SameShape.symm (h : SameShape f g) : SameShape g f :=
  ⟨h.width.symm, h.size.symm, h.allocatable.symm, h.volatile.symm⟩

end RegisterFile

/-! ## Routines -/

theorem Target.inRange_registerFile {t : Target} {q : Register} :
    t.registerFile.InRange q ↔ q.id < 32 ∧ q.bank < 2 := by
  change q.id < 32 ∧ q.bank * 32 + q.id < 64 ↔ _
  omega

theorem Format.bank_lt (f : Format) : f.bank < 2 := by cases f <;> decide

theorem RegisterFile.SameShape.inRange_of_isFree {t : Target} {f : RegisterFile} {q : Register}
    {c : Bool} {ex : RegisterSet} {format : Format} (hs : SameShape t.registerFile f)
    (hq : q.bank = format.bank) (hfree : f.IsFree c ex q) : f.InRange q := by
  have hid := hfree.1
  rw [hs.width] at hid
  exact hs.inRange.mpr (Target.inRange_registerFile.mpr ⟨hid, hq ▸ format.bank_lt⟩)

/-- **The tables of a routine that is being built** fit together, and its registers are those of its
architecture. -/
structure Routine.Ready (r : Routine) : Prop where
  coherent : r.Coherent
  shape : RegisterFile.SameShape r.target.registerFile r.registers

/-- The value is in the register and is needed now. -/
def Routine.Lives (r : Routine) (q : Register) (v : ValueId) : Prop :=
  r.values.handleAt v = .register q ∧ r.values.Covers v r.position

/-- The home of a value: a register of its own, or a slot that exists. -/
structure Routine.Houses (r : Routine) (v : ValueId) (p : Home) : Prop where
  home : (r.values.handleAt v).home? = some p
  own : ∀ d, p = .register d → r.registers.InRange d ∧ r.registers.owner? d = some v
  made : ∀ k, p = .slot (.temporary k) → k < r.temporaries

namespace Routine.Ready

variable {r : Routine} {q : Register}

theorem inRange (hr : r.Ready) : r.registers.InRange q ↔ q.id < 32 ∧ q.bank < 2 :=
  hr.shape.inRange.trans Target.inRange_registerFile

theorem of_registers (hr : r.Ready) {g : RegisterFile} (hg : g.WellFormed)
    (hshape : RegisterFile.SameShape r.registers g)
    (howned : ∀ q v, r.registers.InRange q → g.owner? q = some v → v < r.values.size) :
    Routine.Ready { r with registers := g } :=
  ⟨⟨hg, fun q v hq => howned q v (hshape.inRange.mp hq), hr.coherent.received⟩,
    hr.shape.trans hshape⟩

theorem of_rehomed (hr : r.Ready) {values : Arena} (h : r.values.Rehomed values) :
    Routine.Ready { r with values } :=
  ⟨⟨hr.coherent.registers, fun q v hq ho => h.size ▸ hr.coherent.owned q v hq ho,
    fun v w hw => by
      change w ∈ values.receivers v at hw
      rw [h.receivers] at hw
      exact h.size ▸ hr.coherent.received v w hw⟩, hr.shape⟩

end Routine.Ready

namespace Generating

open Machine

/-! ## Steps next to the machine -/

/-- **What lies between two moments of a build**: operations that take the machine from one state to
the other, other homes of values, and slots. -/
structure Worked (m : Machine) (r : Routine) (s : State) (r' : Routine) (s' : State) : Prop where
  config : r'.config = r.config
  position : r'.position = r.position
  temporaries : r.temporaries ≤ r'.temporaries
  values : r.values.Rehomed r'.values
  ready : r'.Ready
  memory : s'.memory = s.memory
  operations : ∃ ops, r'.operations = r.operations ++ ops ∧ m.execute ops s = some s'

/-- The step succeeds, and something holds of its value, of the routine after it and of the state of
the machine behind its operations. -/
def Works (m : Machine) {α : Type} (g : Generating α) (r : Routine) (s : State)
    (Q : α → Routine → State → Prop) : Prop :=
  ∃ a r' s', g r = .ok a r' ∧ Worked m r s r' s' ∧ Q a r' s'

variable {m : Machine} {r r' r'' : Routine} {s s' s'' : State}

namespace Worked

theorem refl (hr : r.Ready) : Worked m r s r s :=
  ⟨rfl, rfl, Nat.le_refl _, .refl _, hr, rfl, [], by simp, rfl⟩

theorem trans (h : Worked m r s r' s') (h' : Worked m r' s' r'' s'') : Worked m r s r'' s'' := by
  obtain ⟨xs, hx, hex⟩ := h.operations
  obtain ⟨ys, hy, hey⟩ := h'.operations
  refine ⟨h'.config.trans h.config, h'.position.trans h.position,
    Nat.le_trans h.temporaries h'.temporaries, h.values.trans h'.values, h'.ready,
    h'.memory.trans h.memory, xs ++ ys, ?_, ?_⟩
  · rw [hy, hx, List.append_assoc]
  · rw [Machine.execute_append hex, hey]

theorem architecture (h : Worked m r s r' s') : r'.architecture = r.architecture := by
  rw [Routine.architecture, Routine.architecture, h.config]

theorem target (h : Worked m r s r' s') : r'.target = r.target := by
  rw [Routine.target, Routine.target, h.architecture]

theorem shape (h : Worked m r s r' s') (hr : r.Ready) :
    RegisterFile.SameShape r.registers r'.registers :=
  hr.shape.symm.trans (h.target ▸ h.ready.shape)

end Worked

section Logic

variable {α β : Type} {g : Generating α} {f : α → Generating β} {a : α}
variable {Q Q' : α → Routine → State → Prop} {P : β → Routine → State → Prop}

namespace Works

theorem pure (hr : r.Ready) (h : Q a r s) : Works m (Pure.pure a) r s Q :=
  ⟨a, r, s, rfl, .refl hr, h⟩

theorem mono (h : Works m g r s Q)
    (hq : ∀ a r' s', Worked m r s r' s' → Q a r' s' → Q' a r' s') : Works m g r s Q' := by
  obtain ⟨a, r', s', hg, he, h⟩ := h
  exact ⟨a, r', s', hg, he, hq a r' s' he h⟩

theorem of_runs {t : State} (h : Runs g r fun a r' => Worked m r s r' t ∧ Q a r' t) :
    Works m g r s Q := by
  obtain ⟨a, r', hg, hw, hq⟩ := h
  exact ⟨a, r', t, hg, hw, hq⟩

theorem bind (h : Works m g r s Q)
    (hf : ∀ a r' s', Worked m r s r' s' → Q a r' s' → Works m (f a) r' s' P) :
    Works m (g >>= f) r s P := by
  obtain ⟨a, r', s', hg, he, hq⟩ := h
  obtain ⟨b, r'', s'', hf, he', hp⟩ := hf a r' s' he hq
  exact ⟨b, r'', s'', by rw [bind_of_ok hg, hf], he.trans he', hp⟩

theorem step (h : g r = .ok a r) (hf : Works m (f a) r s P) : Works m (g >>= f) r s P := by
  obtain ⟨b, r'', s'', hf, he, hp⟩ := hf
  exact ⟨b, r'', s'', by rw [bind_of_ok h, hf], he, hp⟩

theorem emit {c : Opcode} {xs : List Operand} {t : State} {Q : Unit → Routine → State → Prop}
    (hr : r.Ready) (hx : m.perform s ⟨c, xs⟩ = some (.next, t)) (hmemory : t.memory = s.memory)
    (hq : Q () { r with operations := r.operations ++ [⟨c, xs⟩] } t) :
    Works m (Generating.emit c xs) r s Q :=
  ⟨(), _, t, rfl, ⟨rfl, rfl, Nat.le_refl _, .refl _, ⟨⟨hr.coherent.registers, hr.coherent.owned,
    hr.coherent.received⟩, hr.shape⟩, hmemory, [⟨c, xs⟩], rfl, Machine.execute_singleton hx⟩, hq⟩

/-- Registers with other owners or locks. -/
theorem registers {k : RegisterFile → Except RegisterError RegisterFile} {g : RegisterFile}
    {Q : Unit → Routine → State → Prop} (hr : r.Ready) (hk : k r.registers = .ok g)
    (hg : g.WellFormed) (hshape : RegisterFile.SameShape r.registers g)
    (howned : ∀ q v, r.registers.InRange q → g.owner? q = some v → v < r.values.size)
    (hq : Q () { r with registers := g } s) : Works m (changeRegisters k) r s Q :=
  ⟨(), _, s, changeRegisters_eq g hk, ⟨rfl, rfl, Nat.le_refl _, .refl _,
    hr.of_registers hg hshape howned, rfl, [], by simp, rfl⟩, hq⟩

/-- A value with another handle. -/
theorem setHandle {v : ValueId} {h : Handle} {Q : Unit → Routine → State → Prop} (hr : r.Ready)
    (hv : v < r.values.size)
    (hq : ∀ values, r.values.Rehomed values →
      (∀ w, values.handleAt w = if w = v ∨ w ∈ r.values.receivers v then h
        else r.values.handleAt w) → Q () { r with values } s) :
    Works m (Generating.setHandle v h) r s Q := by
  obtain ⟨values, hvalues, hrehomed, hhandles⟩ :=
    Arena.exists_rehomed hv (hr.coherent.received v) h
  exact ⟨(), _, s, changeValues_eq hvalues, ⟨rfl, rfl, Nat.le_refl _, hrehomed,
    hr.of_rehomed hrehomed, rfl, [], by simp, rfl⟩, hq values hrehomed hhandles⟩

/-- A loop over a list, by an invariant on what is left of it. -/
theorem forM {γ : Type} {xs : List γ} {k : γ → Generating Unit}
    (I : List γ → Routine → State → Prop) (hr : r.Ready) (h : I xs r s)
    (hk : ∀ x rest r s, r.Ready → I (x :: rest) r s →
      Works m (k x) r s fun _ r' s' => I rest r' s') :
    Works m (xs.forM k) r s fun _ r' s' => I [] r' s' := by
  induction xs generalizing r s with
  | nil => exact pure hr h
  | cons x xs ih => exact bind (hk x xs r s hr h) fun _ r' s' hw h' => ih hw.ready h'

/-- **The operations of a step do not depend on the machine** that they run on. -/
theorem uniform {S : Machine → State → Prop} {Q : Machine → State → α → Routine → State → Prop}
    (hS : ∃ m s, S m s) (h : ∀ m s, S m s → Works m g r s (Q m s)) :
    ∃ a r' ops, g r = .ok a r' ∧ r'.operations = r.operations ++ ops ∧
      ∀ m s, S m s → ∃ t, m.execute ops s = some t ∧ Worked m r s r' t ∧ Q m s a r' t := by
  obtain ⟨m₀, s₀, hms⟩ := hS
  obtain ⟨a, r', t₀, hg, hworked, -⟩ := h m₀ s₀ hms
  obtain ⟨ops, hops, -⟩ := hworked.operations
  refine ⟨a, r', ops, hg, hops, fun m s hms => ?_⟩
  obtain ⟨b, q, t, hg', hworked', hq⟩ := h m s hms
  obtain ⟨rfl, rfl⟩ : a = b ∧ r' = q := by
    rw [hg] at hg'
    exact EStateM.Result.ok.inj hg'
  obtain ⟨ops', hops', ht⟩ := hworked'.operations
  obtain rfl : ops = ops' := List.append_cancel_left (hops.symm.trans hops')
  exact ⟨t, ht, hworked', hq⟩

end Works

end Logic

/-! ## Registers -/

variable {q d : Register} {v w : ValueId}

/-- A register is taken from its owner. -/
theorem works_release (hr : r.Ready) (hq : r.registers.InRange q)
    (ho : r.registers.owner? q = some v) {Q : Unit → Routine → State → Prop}
    (h : ∀ g : RegisterFile, RegisterFile.SameShape r.registers g →
      (∀ x, r.registers.InRange x → g.owner? x = if x = q then none else r.registers.owner? x) →
      (∀ x, r.registers.InRange x →
        g.lockCount x = if x = q then 0 else r.registers.lockCount x) →
      Q () { r with registers := g } s) :
    Works m (changeRegisters (·.release q)) r s Q := by
  have hused := hr.coherent.registers.used_of_owner hq ho
  obtain ⟨g, hg, hwell, hshape, howner, hlocks⟩ :=
    RegisterFile.release_spec hr.coherent.registers hused
  refine .registers hr hg hwell hshape (fun x w hx hw => ?_) (h g hshape howner hlocks)
  rw [howner x hx] at hw
  split at hw
  next => cases hw
  next => exact hr.coherent.owned x w hx hw

/-- A register is the home of a value, whoever it belonged to. -/
structure Settled (r : Routine) (v : ValueId) (d : Register) (r' : Routine) : Prop where
  owner : ∀ x, r.registers.InRange x →
    r'.registers.owner? x = if x = d then some v else r.registers.owner? x
  locks : ∀ x, r'.registers.lockCount x = r.registers.lockCount x
  handles : ∀ w, r'.values.handleAt w =
    if w = v ∨ w ∈ r.values.receivers v then .register d else r.values.handleAt w
  temporaries : r'.temporaries = r.temporaries

/-- **A register becomes the home of a value.** -/
theorem works_place (hr : r.Ready) (hd : r.registers.InRange d) (hv : v < r.values.size) :
    Works m (place v d) r s fun _ r' s' => Settled r v d r' ∧ s' = s := by
  obtain ⟨g, hg, hwell, hshape, howner, hlocks⟩ :=
    RegisterFile.assign_spec hr.coherent.registers hd v
  obtain ⟨values, hvalues, hrehomed, hhandles⟩ := Arena.exists_rehomed hv
    (hr.coherent.received v) (.register d)
  have hready : Routine.Ready { r with values, registers := g } :=
    (hr.of_rehomed hrehomed).of_registers hwell hshape fun x w hx hw => by
      rw [howner x hx] at hw
      split at hw
      next => exact Option.some.inj hw ▸ hrehomed.size ▸ hv
      next => exact hrehomed.size ▸ hr.coherent.owned x w hx hw
  unfold place
  refine .of_runs (t := s) (.step (a := ()) (changeRegisters_eq g hg)
    (.of_eq (changeValues_eq hvalues) ?_))
  exact ⟨⟨rfl, rfl, Nat.le_refl _, hrehomed, hready, rfl, [], by simp, rfl⟩,
    ⟨howner, hlocks, hhandles, rfl⟩, rfl⟩

/-! ## Spilling -/

/-- The register of a value is free now, with all its locks. -/
structure Freed (r r' : Routine) (q : Register) : Prop where
  owner : ∀ x, r.registers.InRange x →
    r'.registers.owner? x = if x = q then none else r.registers.owner? x
  locks : ∀ x, r.registers.InRange x →
    r'.registers.lockCount x = if x = q then 0 else r.registers.lockCount x

/-- The value of a register is in a fresh slot, and so are the values that change with it. -/
structure Stored (r : Routine) (s : State) (q : Register) (v : ValueId) (r' : Routine)
    (s' : State) : Prop where
  handles : ∀ w, r'.values.handleAt w =
    if w = v ∨ w ∈ r.values.receivers v then .temporarySlot r.temporaries .qword
    else r.values.handleAt w
  temporaries : r'.temporaries = r.temporaries + 1
  state : s' = s.store (.slot (.temporary r.temporaries)) (s.registers q)

/-- **A register is freed.** If the value that owns it is there and is needed, it is stored. -/
theorem works_spill (hr : r.Ready) (hq : r.registers.InRange q)
    (ho : r.registers.owner? q = some v) :
    Works m (spill q) r s fun _ r' s' => Freed r r' q ∧
      ((r.Lives q v ∧ Stored r s q v r' s') ∨
        (¬ r.Lives q v ∧ r'.values = r.values ∧ r'.temporaries = r.temporaries ∧ s' = s)) := by
  have hv := hr.coherent.owned q v hq ho
  obtain ⟨c, hc⟩ := Arena.exists_cell hv
  have hhandle := Arena.handleAt_eq hc
  unfold spill
  refine .step (a := r.registers.owner? q) rfl ?_
  rw [ho]
  refine .step (handleOf_eq hc) (.step (a := r) rfl (.step (isValid_eq hc _) ?_))
  rw [Routine.Lives, hhandle, Arena.covers_iff hc]
  split
  next hneeded =>
    rw [Handle.register?_eq_some] at hneeded
    obtain ⟨g, hg, hwell, hshape, howner, hlocks⟩ := RegisterFile.release_spec
      hr.coherent.registers (hr.coherent.registers.used_of_owner hq ho)
    obtain ⟨values, hvalues, hrehomed, hhandles⟩ := Arena.exists_rehomed hv
      (hr.coherent.received v) (.temporarySlot r.temporaries .qword)
    refine .of_runs (t := s.store (.slot (.temporary r.temporaries)) (s.registers q))
      (.step (a := r.temporaries) rfl (.step (a := ()) rfl (.step (a := ())
        (changeValues_eq hvalues) (.step (a := ()) rfl (.of_eq (changeRegisters_eq g hg) ?_)))))
    have hready : Routine.Ready { r with values, registers := g } :=
      (hr.of_rehomed hrehomed).of_registers hwell hshape fun x w hx hw => by
        rw [howner x hx] at hw
        split at hw
        next => cases hw
        next => exact hrehomed.size ▸ hr.coherent.owned x w hx hw
    exact ⟨⟨rfl, rfl, Nat.le_succ _, hrehomed, ⟨⟨hready.coherent.registers, hready.coherent.owned,
      hready.coherent.received⟩, hready.shape⟩, rfl, _, rfl,
      Machine.execute_singleton (perform_store (by simp))⟩, ⟨howner, hlocks⟩,
      .inl ⟨hneeded, ⟨hhandles, rfl, rfl⟩⟩⟩
  next hneeded =>
    rw [Handle.register?_eq_some] at hneeded
    refine works_release hr hq ho fun g _ howner hlocks =>
      ⟨⟨howner, hlocks⟩, .inr ⟨hneeded, rfl, rfl, rfl⟩⟩

end Generating

end Codegen
