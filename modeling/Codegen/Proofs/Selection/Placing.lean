import Codegen.Proofs.Ensures
import Codegen.Selection.Build

/-!
# What a build does to values and registers

Building an instruction gives values other places and registers other owners, and makes values of
its own. Each place it gives is a register or a slot, or one that the value had when a snapshot was
taken; each value it makes is a constant or has no place yet; each owner is a value that the
instruction names, or that a place it reads is computed from. So a property of routines that
survives these few changes survives the build of an instruction, whatever operations it takes.

* `Generating.Placing`: **a property of routines that the changes in a build keep**, as long as the
  values that get registers and the registers that they get are of some kind;
* `load_preserves`, `parallelMove_preserves`, `reconcile_preserves`, ...: steps of the selection;
* `Placing.buildAt_preserves`: **the build of an instruction**.
-/

namespace Codegen

/-- A place that is computed from values of a kind, or a register of a kind. -/
structure Handle.Fits (P : ValueId → Prop) (R : Register → Prop) (h : Handle) : Prop where
  inner : ∀ v ∈ h.inner, P v
  register : ∀ q, h = .register q → R q

/-- Is the result of an instruction the mere echo of a value that is read or of a place that is
stored to? -/
def InstructionKind.isEcho : InstructionKind → Bool
  | move .. | getVariable .. => true
  | _ => false

/-- The parameters of an instruction are values of a kind. So is its result, unless it is an
echo. -/
structure Instruction.Fits (P : ValueId → Prop) (i : Instruction) : Prop where
  parameters : ∀ q ∈ i.kind.parameters, P q.value
  result : i.kind.isEcho = false → P i.result

namespace Generating

/-- **A property of routines that the changes in a build keep**, as long as only values of one kind
get registers, and only registers of another kind. -/
structure Placing (P : ValueId → Prop) (R : Register → Prop) (I : Routine → Prop) : Prop where
  /-- It is a property of values, registers and what is recorded of them. -/
  congr : ∀ {r r' : Routine}, I r → r'.config = r.config → r'.values = r.values →
    r'.registers = r.registers → r'.snapshots = r.snapshots → r'.entries = r.entries → I r'
  /-- All places, owners and registers are of their kinds. -/
  handle : ∀ {v}, Ensures I (handleOf v) (Handle.Fits P R)
  occupants : ∀ {r}, I r → ∀ x ∈ r.registers.occupants, P x.2
  entries : ∀ {r}, I r → ∀ e ∈ r.entries, ∀ x ∈ e.2, x.handle.Fits P R
  arguments : ∀ {r}, I r → ∀ formats qs, r.target.argumentRegisters formats = .ok qs →
    ∀ q ∈ qs, R q
  result : ∀ {r}, I r → ∀ f, R (r.target.resultRegister f)
  free : ∀ {f : Format}, Ensures I (free? f.bank) fun o => ∀ q, o = some q → R q
  preserved : ∀ {f : Format}, Ensures I (freePreserved? f.bank) fun o => ∀ q, o = some q → R q
  evict : ∀ {f : Format}, Ensures I (victim f.bank) R
  assign : ∀ {q v}, R q → P v → Preserves I (changeRegisters (·.assign q v))
  release : ∀ {q}, Preserves I (changeRegisters (·.release q))
  protect : ∀ {q}, Preserves I (changeRegisters (·.lock q))
  unlockAll : ∀ {r}, I r → I { r with registers := r.registers.unlockAll }
  /-- The places that are given refer to no other value. -/
  rehome : ∀ {v h}, h.inner = [] → (∀ q, h = .register q → R q) → Preserves I (setHandle v h)
  createBriefly : ∀ {h f}, h.inner = [] → (∀ q, h ≠ .register q) → Ensures I (createBriefly h f) P
  saveSnapshot : ∀ {p}, Preserves I (saveSnapshot p)
  restoreSnapshot : ∀ {p}, Preserves I (restoreSnapshot p)
  recordEntry : ∀ {p actives}, Preserves I (recordEntry p actives)

namespace Placing

variable {P : ValueId → Prop} {R : Register → Prop} {I : Routine → Prop} (hI : Placing P R I)
variable {v w : ValueId} {h : Handle} {f : Format} {r d : Register} {p : Nat}
include hI

/-! ## Values and registers -/

theorem modify_preserves {k : Routine → Routine} (hc : ∀ r, (k r).config = r.config)
    (hv : ∀ r, (k r).values = r.values) (hr : ∀ r, (k r).registers = r.registers)
    (hs : ∀ r, (k r).snapshots = r.snapshots) (he : ∀ r, (k r).entries = r.entries) :
    Preserves I (modify k) :=
  .modify fun r h => hI.congr h (hc r) (hv r) (hr r) (hs r) (he r)

theorem emit_preserves {c : Opcode} {os : List Operand} : Preserves I (emit c os) :=
  hI.modify_preserves (fun _ => rfl) (fun _ => rfl) (fun _ => rfl) (fun _ => rfl) fun _ => rfl

theorem constantData_preserves {n : Number} : Preserves I (constantData n) := by
  refine .modifyGet fun r hr => ?_
  split <;> exact hI.congr hr rfl rfl rfl rfl rfl

omit hI in
theorem owner?_preserves : Preserves I (owner? r) :=
  .seq Ensures.get.preserves fun _ => .pure trivial

omit hI in
theorem isUsed_preserves : Preserves I (isUsed r) :=
  .seq Ensures.get.preserves fun _ => .pure trivial

omit hI in
theorem isVolatile_preserves : Preserves I (isVolatile r) :=
  .seq Ensures.get.preserves fun _ => .pure trivial

theorem lockUsed_preserves : Preserves I (lockUsed r) :=
  .seq isUsed_preserves fun _ => .ite (fun _ => hI.protect) fun _ => .pure trivial

theorem setRegister_preserves (hr : R r) : Preserves I (setHandle v (.register r)) :=
  hI.rehome rfl fun _ hq => Handle.register.inj hq ▸ hr

theorem setPlace_preserves (hh : h.inner = []) (hr : h.register? = none) :
    Preserves I (setHandle v h) :=
  hI.rehome hh fun q hq => by
    rw [hq] at hr
    cases hr

theorem place_preserves (hr : R r) (hv : P v) : Preserves I (place v r) :=
  .seq (hI.assign hr hv) fun _ => hI.setRegister_preserves hr

theorem spill_preserves : Preserves I (spill r) := by
  refine .seq owner?_preserves fun o => ?_
  cases o with
  | none => exact .pure trivial
  | some v =>
    refine .seq handleOf_preserves fun _ => .seq Ensures.get.preserves fun _ =>
      .seq isValid_preserves fun _ => .ite (fun _ => ?_) fun _ => hI.release
    exact .seq (.modifyGet fun _ hr => hI.congr hr rfl rfl rfl rfl rfl) fun _ =>
      .seq hI.emit_preserves fun _ => .seq (hI.setPlace_preserves rfl rfl) fun _ =>
        .seq (hI.modify_preserves (fun _ => rfl) (fun _ => rfl) (fun _ => rfl) (fun _ => rfl)
          fun _ => rfl) fun _ => hI.release

theorem allocate_ensures (hv : P v) : Ensures I (allocate f.bank v) R := by
  refine .bind hI.free fun o ho => ?_
  have given (r : Register) (hr : R r) : Ensures I (do
      changeRegisters (·.assign r v)
      lock r
      return r) R :=
    .seq (hI.assign hr hv) fun _ => .seq hI.protect fun _ => .pure hr
  cases o with
  | none =>
    exact .bind hI.evict fun r hr => .seq hI.spill_preserves fun _ =>
      .bind (P := R) (.pure hr) given
  | some r => exact .bind (P := R) (.pure (ho r rfl)) given

theorem allocate_preserves (hv : P v) : Preserves I (allocate f.bank v) :=
  (hI.allocate_ensures hv).preserves

theorem allocateResult_preserves (hv : P v) : Preserves I (allocateResult v) :=
  .seq formatOf_preserves fun _ => .bind (hI.allocate_ensures hv) fun _ hr =>
    .seq (hI.setRegister_preserves hr) fun _ => .pure trivial

theorem scratch_preserves : Preserves I (scratch f) :=
  .bind (hI.createBriefly rfl (by simp)) fun _ hv => hI.allocate_preserves hv

/-! ## Operands -/

theorem indexableBase_preserves {b : Base} : Preserves I (indexableBase b) := by
  unfold indexableBase
  split
  · exact .pure trivial
  · exact .seq Ensures.get.preserves fun _ => .ite (fun _ => .pure trivial) fun _ =>
      .seq hI.scratch_preserves fun _ => .seq hI.emit_preserves fun _ => .pure trivial

theorem emitScaled_preserves {i : Register} {k : Word} : Preserves I (emitScaled d i k) :=
  .seq Ensures.get.preserves fun _ => .ite (fun _ => hI.emit_preserves) fun _ =>
    .seq hI.emit_preserves fun _ => hI.emit_preserves

theorem scaledIndex_preserves {i : Register} {k : Word} : Preserves I (scaledIndex i k) :=
  .seq Ensures.get.preserves fun _ => .ite (fun _ => .pure trivial) fun _ =>
    .seq hI.scratch_preserves fun _ => .seq hI.emitScaled_preserves fun _ => .pure trivial

theorem transferConstant_preserves {n : Number} : Preserves I (transferConstant r n) :=
  .ite (fun _ => .seq hI.constantData_preserves fun _ => hI.emit_preserves) fun _ =>
    hI.emit_preserves

section Loading

variable {load : Loading} (hl : ∀ v, P v → Preserves I (load v))
include hl

omit hI in
theorem addressBase_preserves (hv : P v) : Preserves I (addressBase load v) := by
  refine .seq handleOf_preserves fun h => ?_
  split
  · exact .pure trivial
  · exact .seq (hl v hv) fun _ => .pure trivial

theorem addressOf_preserves (hh : ∀ v ∈ h.inner, P v) : Preserves I (addressOf load h) := by
  unfold addressOf
  split
  · exact .pure trivial
  · exact .pure trivial
  · exact .pure trivial
  next start _ =>
    have hstart : P start := hh start List.mem_cons_self
    exact .seq (addressBase_preserves hl hstart) fun _ => .pure trivial
  next start offset _ =>
    have hstart : P start := hh start List.mem_cons_self
    have hoffset : P offset := hh offset (List.mem_cons_of_mem _ List.mem_cons_self)
    refine .seq handleOf_preserves fun h => ?_
    split
    · exact .seq (addressBase_preserves hl hstart) fun _ => .seq .ask fun _ => .pure trivial
    · exact .seq (hl _ hoffset) fun _ => .seq hI.scaledIndex_preserves fun _ =>
        .seq (addressBase_preserves hl hstart) fun _ => .seq hI.indexableBase_preserves fun _ =>
          .pure trivial
  · exact .refuse

theorem transferSum_preserves {m : ValueId} {k c : Word} {a : Option ValueId} (hm : P m)
    (ha : ∀ v ∈ a, P v) : Preserves I (transferSum load r m k a c) := by
  have addition : Preserves I (a.mapM load) := by
    cases a with
    | none => exact .pure trivial
    | some v => exact .map (hl v (ha v rfl)) fun _ _ => trivial
  exact .seq (hl m hm) fun _ => .seq addition fun _ => .seq Ensures.get.preserves fun _ =>
    .ite (fun _ => hI.emit_preserves) fun _ => .seq hI.emitScaled_preserves fun _ =>
      .seq (.optionForM fun _ => hI.emit_preserves) fun _ =>
        .ite (fun _ => hI.emit_preserves) fun _ => .pure trivial

theorem transferInto_preserves (hh : ∀ v ∈ h.inner, P v) :
    Preserves I (transferInto load r h f) := by
  unfold transferInto
  split
  · exact .ite (fun _ => hI.emit_preserves) fun _ => .pure trivial
  · exact hI.transferConstant_preserves
  · exact hI.emit_preserves
  next m _ a _ =>
    have hm : P m := hh m List.mem_cons_self
    exact hI.transferSum_preserves hl hm fun v hv =>
      hh v (List.mem_cons_of_mem _ (Option.mem_toList.mpr hv))
  · exact .refuse
  · exact .refuse
  · exact .seq (hI.addressOf_preserves hl hh) fun _ => hI.emit_preserves

theorem loadStep_preserves (hv : P v) : Preserves I (loadStep load v) := by
  refine .bind hI.handle fun h hh => ?_
  split
  · exact .seq hI.lockUsed_preserves fun _ => .pure trivial
  · exact .seq formatOf_preserves fun _ => .seq (hI.allocate_preserves hv) fun _ =>
      .seq (hI.transferInto_preserves hl hh.inner) fun _ => .pure trivial

end Loading

theorem loadWithin_preserves {fuel : Nat} : ∀ v, P v → Preserves I (loadWithin fuel v) := by
  induction fuel with
  | zero => exact fun _ _ => .throw
  | succ fuel ih => exact fun _ hv => hI.loadStep_preserves ih hv

theorem load_preserves (v : ValueId) (hv : P v) : Preserves I (load v) :=
  .seq Ensures.get.preserves fun _ => hI.loadWithin_preserves v hv

theorem memoryOperand_preserves (hh : ∀ v ∈ h.inner, P v) : Preserves I (memoryOperand h) :=
  hI.addressOf_preserves hI.load_preserves hh

theorem transferToRegister_preserves (hh : ∀ v ∈ h.inner, P v) :
    Preserves I (transferToRegister r h f) :=
  hI.transferInto_preserves hI.load_preserves hh

theorem loadAs_preserves (hv : P v) : Preserves I (loadAs v f) := by
  refine .seq formatOf_preserves fun _ => .ite (fun _ => hI.load_preserves v hv) fun _ =>
    .ite (fun _ => .unsupported) fun _ => .seq handleOf_preserves fun h => ?_
  split
  · exact .bind (hI.createBriefly rfl (by simp)) fun v hv => hI.load_preserves v hv
  · exact .seq (hI.load_preserves v hv) fun _ => .bind (hI.createBriefly rfl (by simp)) fun _ hv =>
      .seq (hI.allocate_preserves (f := .decimal) hv) fun _ => .seq hI.emit_preserves fun _ =>
        .pure trivial

theorem sourceAs_ensures (hv : P v) : Ensures I (sourceAs v f) fun h => ∀ w ∈ h.inner, P w :=
  .seq formatOf_preserves fun _ => .ite (fun _ => hI.handle.mono fun _ h => h.inner) fun _ =>
    .seq (hI.loadAs_preserves hv) fun _ => .pure (by simp [Handle.inner])

theorem reusable?_ensures : Ensures I (reusable? v f) fun o => ∀ q, o = some q → R q := by
  refine .bind hI.handle fun h hh => ?_
  split
  next q =>
    refine .seq owner?_preserves fun _ => .seq isExpiring_preserves fun _ => .pure fun x hx => ?_
    split at hx
    · exact Option.some.inj hx ▸ hh.register q rfl
    · cases hx
  · exact .pure (by simp)

theorem takeOver_preserves (hr : R r) (hv : P v) : Preserves I (takeOver v r) :=
  .seq (hI.place_preserves hr hv) fun _ => .seq hI.protect fun _ => .pure trivial

theorem reusableDestination_preserves (hw : P w) : Preserves I (reusableDestination v w) := by
  refine .seq formatOf_preserves fun _ => .bind hI.reusable?_ensures fun o ho => ?_
  split
  next r => exact hI.takeOver_preserves (ho r rfl) hw
  · exact hI.allocateResult_preserves hw

theorem takeOverOrLoad_preserves (o : Option Register) (f : Format) (ho : ∀ q, o = some q → R q)
    (hv : P v) (hw : P w) : Preserves I (match o with
    | some r => takeOver w r
    | none => do
      let source ← sourceAs v f
      let r ← allocateResult w
      transferToRegister r source f
      return r) := by
  split
  next r => exact hI.takeOver_preserves (ho r rfl) hw
  · exact .bind (hI.sourceAs_ensures hv) fun _ hh => .seq (hI.allocateResult_preserves hw) fun _ =>
      .seq (hI.transferToRegister_preserves hh) fun _ => .pure trivial

theorem loadForWrite_preserves (hv : P v) (hw : P w) : Preserves I (loadForWrite v w) := by
  have rest {g : Generating (Option Register)} {f : Format}
      (hg : Ensures I g fun o => ∀ q, o = some q → R q) : Preserves I (do
        match ← g with
        | some r => takeOver w r
        | none => do
          let source ← sourceAs v f
          let r ← allocateResult w
          transferToRegister r source f
          return r) :=
    .bind hg fun o ho => hI.takeOverOrLoad_preserves o f ho hv hw
  have nothing : Ensures I (Pure.pure (none : Option Register)) fun o => ∀ q, o = some q → R q :=
    .pure (by simp)
  refine .seq formatOf_preserves fun f => .seq formatOf_preserves fun _ =>
    .ite (fun _ => .bind hI.handle fun h hh => ?_) fun _ => rest nothing
  split
  next q =>
    refine .seq owner?_preserves fun _ => .seq isExpiring_preserves fun _ => rest (.pure ?_)
    intro x hx
    split at hx
    · exact Option.some.inj hx ▸ hh.register q rfl
    · cases hx
  · exact rest nothing

theorem operand_preserves {access : Access} (hv : P v) : Preserves I (operand v access) := by
  have loaded : Preserves I (return Operand.register (← load v)) :=
    .seq (hI.load_preserves v hv) fun _ => .pure trivial
  refine .bind hI.handle fun h hh => .seq formatOf_preserves fun _ =>
    .seq Ensures.get.preserves fun _ => ?_
  dsimp only
  split
  · exact .seq hI.lockUsed_preserves fun _ => .pure trivial
  · exact .ite (fun _ => .pure trivial) fun _ => loaded
  · exact .ite (fun _ => .seq hI.constantData_preserves fun _ => .pure trivial) fun _ => loaded
  · exact .ite (fun _ => .pure trivial) fun _ => loaded
  · exact .ite (fun _ => .seq (hI.memoryOperand_preserves hh.inner) fun _ => .pure trivial)
      fun _ => loaded

/-! ## Transfers -/

omit hI in
theorem reservedScratch_preserves {c : Inconsistency} : Preserves I (reservedScratch f c) :=
  .seq Ensures.get.preserves fun _ => Ensures.required.preserves

theorem memorySource_preserves (hh : ∀ v ∈ h.inner, P v) : Preserves I (memorySource h) := by
  unfold memorySource
  split
  · exact .seq hI.constantData_preserves fun _ => .pure trivial
  · exact hI.memoryOperand_preserves hh

theorem transferToMemory_preserves {m : MemoryOperand} (hh : ∀ v ∈ h.inner, P v) :
    Preserves I (transferToMemory m h f) := by
  have viaStack : Preserves I (do
      let s ← memorySource h
      emit .push [.memory s]
      emit .pop [.memory m]) :=
    .seq (hI.memorySource_preserves hh) fun _ => .seq hI.emit_preserves fun _ => hI.emit_preserves
  have viaRegister : Preserves I (do
      let r ← reservedScratch f .noScratch
      transferToRegister r h f
      emit .move [.memory m, .register r]) :=
    .seq reservedScratch_preserves fun _ => .seq (hI.transferToRegister_preserves hh) fun _ =>
      hI.emit_preserves
  refine .seq Ensures.get.preserves fun _ => ?_
  split
  · exact hI.emit_preserves
  · exact .ite (fun _ => hI.emit_preserves) fun _ => .ite (fun _ => viaStack) fun _ => viaRegister
  · exact .ite (fun _ => viaStack) fun _ => viaRegister

theorem transfer_preserves {d : Handle} (hd : ∀ v ∈ d.inner, P v) (hh : ∀ v ∈ h.inner, P v) :
    Preserves I (transfer d h f) := by
  unfold transfer
  split
  · exact hI.transferToRegister_preserves hh
  · exact .seq (hI.memoryOperand_preserves hd) fun _ => hI.transferToMemory_preserves hh

theorem moveInto_preserves (hh : ∀ v ∈ h.inner, P v) (hv : P v) : Preserves I (moveInto h v) := by
  refine .seq formatOf_preserves fun _ => ?_
  split
  · exact .bind hI.handle fun _ h => hI.transferToRegister_preserves h.inner
  · refine .seq Ensures.get.preserves fun _ => .ite (fun _ => ?_) fun _ => ?_
    · exact .seq (hI.operand_preserves hv) fun _ => .seq (hI.memoryOperand_preserves hh) fun _ =>
        hI.emit_preserves
    · exact .seq (.map (hI.load_preserves v hv) fun _ => id) fun _ =>
        .seq (hI.memoryOperand_preserves hh) fun _ => hI.emit_preserves

theorem plainSource_ensures (hv : P v) : Ensures I (plainSource v) fun h => ∀ w ∈ h.inner, P w := by
  have loaded : Ensures I (return Handle.register (← load v)) fun h => ∀ w ∈ h.inner, P w :=
    .seq (hI.load_preserves v hv) fun _ => .pure (by simp [Handle.inner])
  refine .bind hI.handle fun h hh => ?_
  split
  case h_7 => exact .pure hh.inner
  all_goals exact loaded

/-- An assignment whose places are computed from values of a kind. -/
def Assigns (P : ValueId → Prop) (a : Assignment) : Prop :=
  (∀ v ∈ a.destination.inner, P v) ∧ ∀ v ∈ a.source.inner, P v

theorem assignment?_ensures {m : Handle × ValueId} (hm : ∀ v ∈ m.1.inner, P v) (hv : P m.2) :
    Ensures I (assignment? m) fun o => ∀ a, o = some a → Assigns P a := by
  refine .seq formatOf_preserves fun _ => .bind (hI.plainSource_ensures hv) fun h hh => .pure ?_
  intro a ha
  split at ha
  · cases ha
  · cases ha
    exact ⟨hm, hh⟩

theorem saveDestination_preserves {ps : List Assignment} {kept : List ValueId} {a : Assignment} :
    Preserves I (saveDestination ps kept a) := by
  unfold saveDestination
  split
  · refine .seq owner?_preserves fun o => ?_
    split
    · exact .pure trivial
    · exact .seq Ensures.get.preserves fun _ => .seq isValid_preserves fun _ =>
        .seq handleOf_preserves fun _ => .ite (fun _ => hI.spill_preserves) fun _ => .pure trivial
  · exact .pure trivial

theorem placeOperand_preserves (hh : ∀ v ∈ h.inner, P v) : Preserves I (placeOperand h) := by
  unfold placeOperand
  split
  · exact .pure trivial
  · exact .seq (hI.memoryOperand_preserves hh) fun _ => .pure trivial

theorem breakCycle_ensures {a : Assignment} {rest : List Assignment} (ha : Assigns P a)
    (hrest : ∀ b ∈ rest, Assigns P b) :
    Ensures I (breakCycle a rest) fun ps => ∀ b ∈ ps, Assigns P b := by
  refine .seq Ensures.get.preserves fun _ => .ite (fun _ => ?_) fun _ => ?_
  · refine .seq (hI.placeOperand_preserves ha.1) fun _ =>
      .seq (hI.placeOperand_preserves ha.2) fun _ => .seq hI.emit_preserves fun _ => .pure ?_
    intro b hb
    obtain ⟨c, hc, rfl⟩ := List.mem_map.mp (List.mem_filter.mp hb).1
    have hc := hrest c hc
    split
    · exact ⟨hc.1, ha.2⟩
    · split
      · exact ⟨hc.1, ha.1⟩
      · exact hc
  · refine .seq reservedScratch_preserves fun r =>
      .seq (hI.transfer_preserves (by simp [Handle.inner]) ha.1) fun _ => .pure ?_
    intro b hb
    obtain ⟨c, hc, rfl⟩ := List.mem_map.mp hb
    have hc : Assigns P c := List.forall_mem_cons.mpr ⟨ha, hrest⟩ c hc
    split
    · exact ⟨hc.1, by simp [Handle.inner]⟩
    · exact hc

theorem assignAll_preserves {fuel : Nat} {ps : List Assignment} (hps : ∀ a ∈ ps, Assigns P a) :
    Preserves I (assignAll fuel ps) := by
  induction fuel generalizing ps with
  | zero =>
    cases ps with
    | nil => exact .pure trivial
    | cons => exact .throw
  | succ fuel ih =>
    cases ps with
    | nil => exact .pure trivial
    | cons a rest =>
      unfold assignAll
      dsimp only
      split
      next i _ =>
        have hrest : ∀ b ∈ (a :: rest).eraseIdx i, Assigns P b := fun b hb =>
          hps b (List.mem_of_mem_eraseIdx hb)
        refine .seq ?_ fun _ => ih hrest
        cases hb : (a :: rest)[i]? with
        | none => exact .pure trivial
        | some b =>
          have hb := hps b (List.mem_of_getElem? hb)
          exact hI.transfer_preserves hb.1 hb.2
      · rw [List.forall_mem_cons] at hps
        exact .bind (hI.breakCycle_ensures hps.1 hps.2) fun _ h => ih h

theorem parallelMove_preserves {moves : List (Handle × ValueId)} {replaced : List ValueId}
    (hm : ∀ m ∈ moves, (∀ v ∈ m.1.inner, P v) ∧ P m.2) :
    Preserves I (parallelMove moves replaced) :=
  .bind (Ensures.filterMapM fun m hmem => hI.assignment?_ensures (hm m hmem).1 (hm m hmem).2)
    fun _ hps => .seq (.forM fun _ _ => .optionForM fun _ => hI.lockUsed_preserves) fun _ =>
      .seq (.forM fun _ _ => hI.saveDestination_preserves) fun _ => hI.assignAll_preserves hps

/-! ## Arithmetic -/

variable {opcode : Opcode} {source : Operand} {first second result : ValueId} {k : Nat}

theorem buildOverwriting_preserves (hf : P first) (hr : P result) :
    Preserves I (buildOverwriting opcode first result source) :=
  .seq (hI.loadForWrite_preserves hf hr) fun _ => hI.emit_preserves

section Operation

variable (hf : P first) (hs : P second) (hr : P result)
include hf hs hr

theorem buildDecimal_preserves : Preserves I (buildDecimal opcode first second result) := by
  refine .seq Ensures.get.preserves fun _ => .ite (fun _ => .seq formatOf_preserves fun _ =>
    .ite (fun _ => ?_) fun _ => ?_) fun _ => ?_
  · exact .seq (hI.operand_preserves hs) fun _ => hI.buildOverwriting_preserves hf hr
  · exact .seq (.map (hI.loadAs_preserves hs) fun _ => id) fun _ =>
      hI.buildOverwriting_preserves hf hr
  · exact .seq (hI.loadAs_preserves hf) fun _ => .seq (hI.loadAs_preserves hs) fun _ =>
      .seq (hI.reusableDestination_preserves hr) fun _ => hI.emit_preserves

omit hI hf hs hr in
theorem isAddressSum_preserves : Preserves I (isAddressSum first second) := by
  refine .seq handleOf_preserves fun _ => ?_
  split
  · refine .seq isExpiring_preserves fun _ => .ite (fun _ => .pure trivial) fun _ =>
      .seq handleOf_preserves fun _ => ?_
    split <;> exact .pure trivial
  · exact .pure trivial

theorem buildAddressSum_preserves : Preserves I (buildAddressSum first second result) := by
  refine .seq (hI.load_preserves _ hf) fun _ => .seq (hI.operand_preserves hs) fun o => ?_
  have computed (m : MemoryOperand) : Preserves I (do emitAddress (← allocateResult result) m) :=
    .seq (hI.allocateResult_preserves hr) fun _ => hI.emit_preserves
  split
  · exact .seq (.pure trivial) computed
  · exact .seq (.pure trivial) computed
  · exact .seq .refuse computed

theorem buildAdditive_preserves : Preserves I (buildAdditive opcode first second result) := by
  refine .seq formatOf_preserves fun _ => .ite (fun _ => hI.buildDecimal_preserves hf hs hr)
    fun _ => .seq Ensures.get.preserves fun _ => .ite (fun _ => ?_) fun _ => ?_
  · exact .seq (hI.load_preserves _ hf) fun _ => .seq (hI.operand_preserves hs) fun _ =>
      .seq (hI.reusableDestination_preserves hr) fun _ => hI.emit_preserves
  · exact .seq isAddressSum_preserves fun _ =>
      .ite (fun _ => hI.buildAddressSum_preserves hf hs hr) fun _ =>
        .seq (hI.operand_preserves hs) fun _ => hI.buildOverwriting_preserves hf hr

omit hs in
theorem buildShift_preserves : Preserves I (buildShift first k result) := by
  refine .seq Ensures.get.preserves fun _ => .ite (fun _ => ?_) fun _ =>
    .seq handleOf_preserves fun _ => .seq isExpiring_preserves fun _ => .ite (fun _ => ?_) fun _ =>
      hI.buildOverwriting_preserves hf hr
  · exact .seq (hI.load_preserves _ hf) fun _ => .seq (hI.reusableDestination_preserves hr)
      fun _ => hI.emit_preserves
  · exact .seq (hI.load_preserves _ hf) fun _ => .seq (hI.allocateResult_preserves hr) fun _ =>
      hI.emit_preserves

omit hs in
theorem buildAddressProduct_preserves : Preserves I (buildAddressProduct first k result) :=
  .seq (hI.load_preserves _ hf) fun _ => .seq (hI.reusableDestination_preserves hr) fun _ =>
    hI.emit_preserves

omit hs in
theorem buildShiftedSum_preserves : Preserves I (buildShiftedSum first k result) :=
  .seq (hI.load_preserves _ hf) fun _ => .seq (hI.reusableDestination_preserves hr) fun _ =>
    hI.emit_preserves

theorem buildProduct_preserves : Preserves I (buildProduct first second result) :=
  .seq Ensures.get.preserves fun _ => .ite
    (fun _ => .seq (hI.operand_preserves hs) fun _ => hI.buildOverwriting_preserves hf hr)
    fun _ => .seq (hI.load_preserves _ hf) fun _ => .seq (hI.load_preserves _ hs) fun _ =>
      .seq (hI.reusableDestination_preserves hr) fun _ => hI.emit_preserves

theorem buildConstantProduct_preserves {c : Word} :
    Preserves I (buildConstantProduct first c second result) :=
  .seq Ensures.get.preserves fun _ => .ite
    (fun _ => .seq (hI.operand_preserves hf) fun _ =>
      .seq (hI.reusableDestination_preserves hr) fun _ => hI.emit_preserves)
    fun _ => hI.buildProduct_preserves hf hs hr

theorem buildScaled_preserves {c : Word} : Preserves I (buildScaled first c second result) := by
  unfold buildScaled
  split
  · exact hI.buildShift_preserves hf hr
  · refine .seq Ensures.get.preserves fun _ => ?_
    split
    · exact .ite (fun _ => hI.buildShiftedSum_preserves hf hr) fun _ =>
        .ite (fun _ => hI.buildAddressProduct_preserves hf hr) fun _ =>
          hI.buildConstantProduct_preserves hf hs hr
    · exact hI.buildConstantProduct_preserves hf hs hr

omit hI hf hs hr in
theorem integerOf?_preserves : Preserves I (integerOf? v) := by
  refine .seq handleOf_preserves fun _ => ?_
  split <;> exact .pure trivial

theorem buildMultiplication_preserves : Preserves I (buildMultiplication first second result) := by
  refine .seq formatOf_preserves fun _ => .ite (fun _ => hI.buildDecimal_preserves hf hs hr)
    fun _ => .seq integerOf?_preserves fun _ => .seq integerOf?_preserves fun _ => ?_
  split
  · exact hI.buildScaled_preserves hf hs hr
  · exact hI.buildScaled_preserves hs hf hr
  · exact hI.buildProduct_preserves hf hs hr

end Operation

theorem redirect_preserves (hr : R r) (hw : P w) : Preserves I (redirect v r w) := by
  refine .seq cellOf_preserves fun c => ?_
  split
  case h_2 => exact .pure trivial
  refine .seq Ensures.get.preserves fun _ => .ite (fun _ => .pure trivial) fun _ =>
    .seq isExpiring_preserves fun _ => .ite (fun _ => .pure trivial) fun _ =>
      .seq handleOf_preserves fun _ => ?_
  split
  case h_2 => exact .pure trivial
  refine .seq owner?_preserves fun _ => .ite (fun _ => .pure trivial) fun _ =>
    .seq Ensures.get.preserves fun q => ?_
  split
  case h_2 => exact .pure trivial
  refine .ite (fun _ => .pure trivial) fun _ => .seq Ensures.get.preserves fun _ => ?_
  split
  case h_2 => exact .pure trivial
  refine .seq (hI.modify_preserves (fun _ => rfl) (fun _ => rfl) (fun _ => rfl) (fun _ => rfl)
    fun _ => rfl) fun _ => .seq hI.release fun _ => .seq (hI.assign hr hw) fun _ =>
      .seq (hI.setRegister_preserves hr) fun _ => .ite (fun _ => ?_) fun _ => .pure trivial
  exact .seq (hI.setRegister_preserves hr) fun _ => .pure trivial

/-! ## Calls -/

theorem relocate_preserves (hd : R d) (hv : P v) : Preserves I (relocate v r d) :=
  .seq hI.emit_preserves fun _ => .seq hI.release fun _ => hI.place_preserves hd hv

theorem evacuateFrom_preserves (hv : P v) : Preserves I (evacuateFrom r v) := by
  refine .seq Ensures.get.preserves fun _ => .seq isValid_preserves fun _ =>
    .seq isVolatile_preserves fun _ => .seq handleOf_preserves fun _ =>
      .ite (fun _ => ?_) fun _ => .pure trivial
  refine .seq formatOf_preserves fun _ => .bind hI.preserved fun o ho => ?_
  split
  next d => exact hI.relocate_preserves (ho d rfl) hv
  · exact hI.spill_preserves

theorem buildEvacuate_preserves : Preserves I buildEvacuate :=
  .bind Ensures.get fun _ hr => .forM fun x hx => hI.evacuateFrom_preserves (hI.occupants hr x hx)

theorem releaseVolatile_preserves : Preserves I releaseVolatile :=
  .seq Ensures.get.preserves fun _ => .forM fun _ _ => .seq isVolatile_preserves fun _ =>
    .ite (fun _ => hI.release) fun _ => .pure trivial

theorem moveToRegisters_preserves {qs : List Register} {vs : List ValueId} (hv : ∀ v ∈ vs, P v) :
    Preserves I (parallelMove ((qs.map Handle.register).zip vs) []) := by
  refine hI.parallelMove_preserves fun m hm => ?_
  obtain ⟨hq, hm⟩ := List.of_mem_zip hm
  obtain ⟨q, -, hq⟩ := List.mem_map.mp hq
  exact ⟨by simp [← hq, Handle.inner], hv m.2 hm⟩

theorem buildCall_preserves {symbol : String} {arguments : List ValueId}
    (ha : ∀ v ∈ arguments, P v) (hr : P result) :
    Preserves I (buildCall symbol arguments result) := by
  refine .bind Ensures.get fun r₀ h₀ =>
    .seq (Ensures.mapM fun _ _ => formatOf_preserves).preserves fun _ => ?_
  split
  · exact .refuse
  · exact .seq (hI.moveToRegisters_preserves ha) fun _ => .seq hI.emit_preserves fun _ =>
      .seq hI.releaseVolatile_preserves fun _ => .seq formatOf_preserves fun f =>
        hI.place_preserves (hI.result h₀ f) hr

theorem buildReturn_preserves {value? : Option ValueId} (hv : ∀ v ∈ value?, P v) :
    Preserves I (buildReturn value?) := by
  have moved {r : Register} {f : Format} {v : ValueId} {redirected : Bool} :
      Preserves I (if (!redirected) = true then do transferToRegister r (← handleOf v) f
        else Pure.pure PUnit.unit) :=
    .ite (fun _ => .bind hI.handle fun _ h => hI.transferToRegister_preserves h.inner) fun _ =>
      .pure trivial
  have returned : Preserves I (value?.forM fun v => do
      let f ← formatOf v
      let r := (← MonadState.get).target.resultRegister f
      let redirected ← if ← isUsed r then Pure.pure false else redirect v r v
      if !redirected then transferToRegister r (← handleOf v) f) := by
    cases value? with
    | none => exact .pure trivial
    | some v =>
      exact .seq formatOf_preserves fun f => .bind Ensures.get fun r₀ h₀ =>
        .seq isUsed_preserves fun _ => .ite (fun _ => .seq (.pure trivial) fun _ => moved) fun _ =>
          .seq (hI.redirect_preserves (hI.result h₀ f) (hv v rfl)) fun _ => moved
  exact .seq returned fun _ => hI.emit_preserves

/-! ## Merging -/

/-- A way back, whose values and places are of their kinds. -/
structure Returns (P : ValueId → Prop) (R : Register → Prop) (plan : ReturnPlan) : Prop where
  moves : ∀ m ∈ plan.moves, (∀ v ∈ m.1.inner, P v) ∧ P m.2
  homes : ∀ x ∈ plan.homes, P x.1 ∧ x.2.inner = [] ∧ ∀ q, x.2 = .register q → R q

theorem planReturn_ensures {entries : List Entry} {survivingOnly : Bool} {pair : MergePair}
    (he : ∀ x ∈ entries, x.handle.Fits P R) (ho : P pair.outer) (hi : P pair.inner) :
    Ensures I (planReturn entries survivingOnly pair) (Returns P R) := by
  have nothing : Ensures I (Pure.pure (⟨[], []⟩ : ReturnPlan)) (Returns P R) :=
    .pure ⟨by simp, by simp⟩
  refine .seq Ensures.get.preserves fun _ => .seq isValid_preserves fun _ => ?_
  split
  · exact nothing
  next h hfound =>
    refine .ite (fun _ => nothing) fun _ => .ite (fun _ => nothing) fun hplace => ?_
    have hinner : h.inner = [] := by
      cases h <;> simp_all [Handle.register?, Handle.isSlot, Handle.inner]
    obtain ⟨x, hx, rfl⟩ := Option.map_eq_some_iff.mp hfound
    have hregister := (he x (List.mem_of_find?_eq_some hx)).register
    refine .ite (fun _ => .seq (hI.rehome hinner hregister) fun _ => nothing) fun _ => ?_
    refine .seq handleOf_preserves fun _ => .pure ⟨fun m hm => ?_, ?_⟩
    · split at hm
      · cases hm
      · rw [List.mem_singleton.mp hm]
        exact ⟨by simp [hinner], hi⟩
    · simpa using ⟨ho, hinner, hregister⟩

theorem settleAt_preserves (hv : P v) (hh : h.inner = []) (hr : ∀ q, h = .register q → R q) :
    Preserves I (settleAt v h) := by
  have assigned : Preserves I (h.register?.forM fun r => changeRegisters (·.assign r v)) := by
    cases h with
    | register q => exact hI.assign (hr q rfl) hv
    | _ => exact .pure trivial
  exact .seq assigned fun _ => hI.rehome hh hr

theorem reconcile_preserves {pairs : List MergePair} {survivingOnly : Bool}
    (hp : ∀ x ∈ pairs, P x.outer ∧ P x.inner) : Preserves I (reconcile p pairs survivingOnly) := by
  refine .bind Ensures.get fun r₀ h₀ => .bind Ensures.required fun entries he => ?_
  have he : ∀ x ∈ entries, x.handle.Fits P R := by
    obtain ⟨before, after, h, -⟩ := List.lookup_eq_some_iff.mp he
    exact hI.entries h₀ (p, entries) (by simp [h])
  refine .bind (.mapM fun x hx => hI.planReturn_ensures he (hp x hx).1 (hp x hx).2)
    fun plans hplans => .seq (hI.parallelMove_preserves fun m hm => ?_) fun _ =>
      .forM fun x hx => ?_
  · obtain ⟨plan, hplan, hm⟩ := List.mem_flatMap.mp hm
    exact (hplans plan hplan).moves m hm
  · obtain ⟨plan, hplan, hx⟩ := List.mem_flatMap.mp hx
    obtain ⟨hv, hinner, hregister⟩ := (hplans plan hplan).homes x hx
    exact hI.settleAt_preserves hv hinner hregister

theorem freeFor?_ensures {preserved : Bool} :
    Ensures I (freeFor? f.bank preserved) fun o => ∀ q, o = some q → R q :=
  .ite (fun _ => hI.preserved) fun _ => hI.free

theorem cacheSlot_preserves {preserved : Bool} (hv : P v) (hh : ∀ v ∈ h.inner, P v) :
    Preserves I (cacheSlot v h preserved) := by
  refine .seq formatOf_preserves fun _ => .bind hI.freeFor?_ensures fun o ho => ?_
  split
  · exact .pure trivial
  next q =>
    exact .seq (hI.transferToRegister_preserves hh) fun _ => hI.place_preserves (ho q rfl) hv

theorem preserve_preserves (hv : P v) : Preserves I (preserve v r) := by
  refine .seq isVolatile_preserves fun _ => .seq owner?_preserves fun _ =>
    .ite (fun _ => ?_) fun _ => .pure trivial
  refine .seq formatOf_preserves fun _ => .bind hI.preserved fun o ho => ?_
  split
  next d => exact hI.relocate_preserves (ho d rfl) hv
  · exact .pure trivial

theorem buildCache_preserves {vars : List Binding} {preserved : Bool} (hv : ∀ b ∈ vars, P b.2) :
    Preserves I (buildCache vars preserved) := by
  refine .forM fun b hb => .seq Ensures.get.preserves fun _ => .seq isValid_preserves fun _ =>
    .ite (fun _ => .bind hI.handle fun h hh => ?_) fun _ => .pure trivial
  split
  · exact .ite (fun _ => hI.preserve_preserves (hv b hb)) fun _ => .pure trivial
  · exact .ite (fun _ => hI.cacheSlot_preserves (hv b hb) hh.inner) fun _ => .pure trivial

/-! ## Other instructions -/

theorem buildParameters_preserves {parameters : List ValueId} (hv : ∀ v ∈ parameters, P v) :
    Preserves I (buildParameters parameters) := by
  refine .bind Ensures.get fun r₀ h₀ =>
    .seq (Ensures.mapM fun _ _ => formatOf_preserves).preserves fun formats => ?_
  split
  · exact .refuse
  next qs hqs =>
    refine .forM fun x hx => ?_
    obtain ⟨hparameter, hq⟩ := List.of_mem_zip hx
    exact hI.place_preserves (hI.arguments h₀ formats qs hqs x.2 hq) (hv x.1 hparameter)

theorem buildCompare_preserves (hf : P first) (hs : P second) :
    Preserves I (buildCompare first second) := by
  refine .seq Ensures.get.preserves fun _ => .seq formatOf_preserves fun _ =>
    .seq formatOf_preserves fun _ => .ite (fun _ => .seq (hI.loadAs_preserves hf) fun _ =>
      .ite (fun _ => ?_) fun _ => ?_) fun _ => ?_
  · exact .seq (hI.operand_preserves hs) fun _ => hI.emit_preserves
  · exact .seq (.map (hI.loadAs_preserves hs) fun _ => id) fun _ => hI.emit_preserves
  · exact .seq (hI.load_preserves _ hf) fun _ => .seq (hI.operand_preserves hs) fun _ =>
      hI.emit_preserves

theorem redirectOrMove_preserves (hf : P first) (hs : P second) (hh : h.Fits P R) :
    Preserves I (do
      let redirected ←
        match h.register? with
        | some r => if ← isUsed r then pure false else redirect second r first
        | none => pure false
      if !redirected then
        let f ← formatOf first
        if f.isDecimal && !(← formatOf second).isDecimal then
          let converted ← loadAs second f
          emit .move [.memory (← memoryOperand h), .register converted]
        else moveInto h second) := by
  have stored {redirected : Bool} : Preserves I (do
      if !redirected then
        let f ← formatOf first
        if f.isDecimal && !(← formatOf second).isDecimal then
          let converted ← loadAs second f
          emit .move [.memory (← memoryOperand h), .register converted]
        else moveInto h second) := by
    refine .ite (fun _ => .seq formatOf_preserves fun _ => .seq formatOf_preserves fun _ =>
      .ite (fun _ => ?_) fun _ => hI.moveInto_preserves hh.inner hs) fun _ => .pure trivial
    exact .seq (hI.loadAs_preserves hs) fun _ => .seq (hI.memoryOperand_preserves hh.inner)
      fun _ => hI.emit_preserves
  cases h with
  | register q =>
    exact .seq isUsed_preserves fun _ => .ite (fun _ => .seq (.pure trivial) fun _ => stored)
      fun _ => .seq (hI.redirect_preserves (hh.register q rfl) hf) fun _ => stored
  | _ => exact .seq (.pure trivial) fun _ => stored

theorem buildMove_preserves (hf : P first) (hs : P second) : Preserves I (buildMove first second) :=
  .bind hI.handle fun _ hh =>
    .ite (fun _ => .seq .refuse fun _ => hI.redirectOrMove_preserves hf hs hh) fun _ =>
      hI.redirectOrMove_preserves hf hs hh

theorem buildDuplicate_preserves (hv : P v) (hr : P result) :
    Preserves I (buildDuplicate v result) :=
  .seq formatOf_preserves fun _ => .bind (hI.sourceAs_ensures hv) fun _ hh =>
    .seq (hI.allocateResult_preserves hr) fun _ => hI.transferToRegister_preserves hh

theorem buildRead_preserves (hv : P v) : Preserves I (buildRead v) := by
  refine .bind hI.handle fun h hh => ?_
  split
  next q =>
    exact .seq isUsed_preserves fun _ => .ite (fun _ => hI.assign (hh.register q rfl) hv) fun _ =>
      .pure trivial
  · exact .pure trivial

theorem buildJump_preserves {l : Label} {test : Option JumpTest} : Preserves I (buildJump l test) :=
  .seq Ensures.get.preserves fun _ => hI.emit_preserves

theorem releaseExpired_preserves : Preserves I releaseExpired :=
  .seq Ensures.get.preserves fun _ => .forM fun _ _ => .seq handleOf_preserves fun _ =>
    .seq Ensures.get.preserves fun _ => .seq isValid_preserves fun _ =>
      .ite (fun _ => hI.release) fun _ => .pure trivial

/-! ## Instructions -/

variable {kind : InstructionKind} {i : Instruction}

theorem buildInstruction_preserves (hp : ∀ q ∈ kind.parameters, P q.value)
    (hr : kind.isEcho = false → P result) : Preserves I (buildInstruction p result kind) := by
  have merged {pairs : List MergePair}
      (h : ∀ q ∈ InstructionKind.mergeParameters pairs, P q.value) :
      ∀ x ∈ pairs, P x.outer ∧ P x.inner := by
    intro x hx
    have parameter (q : Parameter)
        (hq : q ∈ ([⟨x.outer, .home⟩, ⟨x.inner, .read⟩] : List Parameter)) : P q.value :=
      h q (List.mem_flatMap.mpr ⟨x, hx, hq⟩)
    exact ⟨parameter ⟨x.outer, .home⟩ (by simp), parameter ⟨x.inner, .read⟩ (by simp)⟩
  cases kind with
  | bindParameters vs =>
    exact hI.buildParameters_preserves fun v hv => hp ⟨v, .bound⟩ (List.mem_map_of_mem hv)
  | label => exact .seq Ensures.get.preserves fun _ => hI.emit_preserves
  | jump => exact hI.buildJump_preserves
  | compare left right =>
    exact hI.buildCompare_preserves (hp ⟨left, .read⟩ (by simp [InstructionKind.parameters]))
      (hp ⟨right, .read⟩ (by simp [InstructionKind.parameters]))
  | move destination source =>
    exact hI.buildMove_preserves (hp ⟨destination, .stored⟩ (by simp [InstructionKind.parameters]))
      (hp ⟨source, .read⟩ (by simp [InstructionKind.parameters]))
  | duplicate v =>
    exact hI.buildDuplicate_preserves (hp ⟨v, .read⟩ (by simp [InstructionKind.parameters]))
      (hr rfl)
  | addition first second | subtraction first second =>
    exact hI.buildAdditive_preserves
      (hp ⟨first, .updated⟩ (by simp [InstructionKind.parameters]))
      (hp ⟨second, .read⟩ (by simp [InstructionKind.parameters])) (hr rfl)
  | multiplication first second =>
    exact hI.buildMultiplication_preserves
      (hp ⟨first, .updated⟩ (by simp [InstructionKind.parameters]))
      (hp ⟨second, .read⟩ (by simp [InstructionKind.parameters])) (hr rfl)
  | getMemoryAddress | getObjectPointer | allocateStack | branch => exact .pure trivial
  | call symbol arguments =>
    exact hI.buildCall_preserves (fun v hv => hp ⟨v, .read⟩ (List.mem_map_of_mem hv)) (hr rfl)
  | ret value =>
    exact hI.buildReturn_preserves fun v hv =>
      hp ⟨v, .read⟩ (List.mem_map_of_mem (Option.mem_toList.mpr hv))
  | evacuate => exact hI.buildEvacuate_preserves
  | saveState => exact hI.saveSnapshot
  | restoreState => exact hI.restoreSnapshot
  | enterScope => exact hI.recordEntry
  | mergeScope _ pairs => exact hI.reconcile_preserves (merged hp)
  | symmetryStart => exact .seq hI.recordEntry fun _ => hI.saveSnapshot
  | symmetryEnd _ pairs =>
    exact .seq (hI.reconcile_preserves (merged hp)) fun _ => hI.restoreSnapshot
  | getVariable _ v =>
    exact hI.buildRead_preserves (hp ⟨v, .read⟩ (by simp [InstructionKind.parameters]))
  | cacheVariables vars =>
    exact hI.buildCache_preserves fun b hb => hp ⟨b.2, .observed⟩ (List.mem_map.mpr ⟨b, hb, rfl⟩)

/-- **The build of an instruction keeps what its changes of values and registers keep.** -/
theorem buildAt_preserves (hi : i.Fits P) : Preserves I (buildAt p i) :=
  .seq (hI.modify_preserves (fun _ => rfl) (fun _ => rfl) (fun _ => rfl) (fun _ => rfl)
    fun _ => rfl) fun _ => .seq hI.releaseExpired_preserves fun _ =>
      .seq (hI.buildInstruction_preserves hi.parameters hi.result) fun _ =>
        .modify fun _ h => hI.congr (hI.unlockAll h) rfl rfl rfl rfl rfl

end Placing

end Codegen.Generating
