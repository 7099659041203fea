import Codegen.Proofs.Steps
import Codegen.Selection.Build

/-!
# What the build of an instruction leaves alone

Building an instruction adds operations to it, moves values, and may change the register of the
operation right before. It defines no labels, jumps nowhere, and makes and asks for no records,
except for the few instructions whose task that is. `Steady` says so of a step; each step of the
selection is shown steady from the steps it is made of.

* `Opcode.isControl`, `Operation.isControl`: the operations that define labels and jump to them;
* `Skeleton`, `Routine.skeleton`: **what of a routine a steady step leaves alone**;
* `Fault.isLost`: a report of a record that was never made;
* `Generating.Steady`: **a step that leaves the skeleton alone and loses no record**;
* `load_steady`, `parallelMove_steady`, `redirect_steady`, ...: the steps of the selection.
-/

namespace Codegen

/-- Does an operation define a label or jump to one? -/
def Opcode.isControl : Opcode → Bool
  | label | jump | conditionalJump .. => true
  | _ => false

/-- Does an operation define a label or jump to one? -/
def Operation.isControl (o : Operation) : Bool := o.opcode.isControl

/-- Does a fault report a record that was never made? -/
def Fault.isLost : Fault → Bool
  | .report (.inconsistent (.noSavedState _)) | .report (.inconsistent (.noEntry _)) => true
  | _ => false

/-- What of a routine most steps of a build leave alone. -/
structure Skeleton where
  symbol : String
  kinds : List InstructionKind
  /-- The labels and jumps of each instruction. -/
  control : List (List Operation)
  /-- The labels and jumps of the instruction that is being built. -/
  current : List Operation
  /-- The instructions whose state was saved. -/
  saved : List Nat
  /-- The instructions whose values were recorded. -/
  entered : List Nat

/-- The skeleton of a routine. -/
def Routine.skeleton (r : Routine) : Skeleton where
  symbol := r.symbol
  kinds := r.kinds
  control := r.instructions.toList.map fun i => i.operations.filter (·.isControl)
  current := r.operations.filter (·.isControl)
  saved := r.snapshots.map (·.1)
  entered := r.entries.map (·.1)

/-! ## Computations without a routine -/

/-- A computation that loses no record. -/
def Lossless {α : Type} (x : Except Fault α) : Prop := ∀ e, x = .error e → e.isLost = false

namespace Lossless

variable {α β : Type} {x : Except Fault α} {f : α → Except Fault β}

theorem ok {a : α} : Lossless (.ok a : Except Fault α) := by simp [Lossless]

theorem crash {c : Crash} : Lossless (.error (.crash c) : Except Fault α) := by
  simp [Lossless, Fault.isLost]

theorem bind (hx : Lossless x) (hf : ∀ a, Lossless (f a)) : Lossless (x >>= f) := by
  cases x with
  | ok a => exact hf a
  | error e =>
    intro e' h
    cases h
    exact hx e rfl

theorem expect {c : Crash} {o : Option α} : Lossless (Fault.expect c o) := by
  cases o with
  | none => exact crash
  | some a => exact ok

theorem foldlM {γ : Type} {k : α → γ → Except Fault α} {xs : List γ} {a : α}
    (hk : ∀ a x, Lossless (k a x)) : Lossless (xs.foldlM k a) := by
  induction xs generalizing a with
  | nil => exact ok
  | cons x xs ih => exact bind (hk a x) fun b => ih

theorem cell {a : Arena} {v : ValueId} : Lossless (a.cell v) := expect

theorem update {a : Arena} {v : ValueId} {k : Cell → Cell} : Lossless (a.update v k) := by
  unfold Arena.update
  split
  · exact ok
  · exact crash

theorem setHandle {a : Arena} {v : ValueId} {h : Handle} {force : Bool} :
    Lossless (a.setHandle v h force) := foldlM fun _ _ => update

theorem isValid {a : Arena} {v : ValueId} {p : Int} : Lossless (a.isValid v p) :=
  bind cell fun _ => ok

theorem isExpiring {a : Arena} {v : ValueId} {p : Int} : Lossless (a.isExpiring v p) :=
  bind isValid fun _ => ok

theorem useAll {p : Int} {fuel : Nat} {vs : List ValueId} {a : Arena} :
    Lossless (Arena.useAll p fuel vs a) := by
  induction fuel generalizing vs a with
  | zero => exact crash
  | succ fuel ih =>
    cases vs with
    | nil => exact ok
    | cons v rest =>
      exact bind update fun a => bind cell fun c => bind ih fun a => bind cell fun c =>
        bind (foldlM fun _ _ => update) fun a => ih

end Lossless

namespace Generating

/-! ## Steady steps -/

/-- The step leads from this routine to skeletons with a property, or it stops without losing a
record. -/
def Attains {α : Type} (g : Generating α) (r : Routine) (P : Skeleton → Prop) : Prop :=
  match g r with
  | .ok _ r' => P r'.skeleton
  | .error e _ => e.isLost = false

/-- The step leads from this routine to that skeleton, or it stops without losing a record. -/
abbrev LeadsTo {α : Type} (g : Generating α) (r : Routine) (s : Skeleton) : Prop :=
  Attains g r (· = s)

/-- The step leaves the skeleton of this routine alone, and loses no record. -/
abbrev SteadyAt {α : Type} (g : Generating α) (r : Routine) : Prop := LeadsTo g r r.skeleton

/-- **The step leaves the skeleton of a routine alone, and loses no record.** -/
def Steady {α : Type} (g : Generating α) : Prop := ∀ r, SteadyAt g r

namespace Steady

variable {α β : Type} {g h : Generating α} {f : α → Generating β}

theorem pure {a : α} : Steady (pure a) := fun _ => rfl

theorem bindAt {r : Routine} {P Q : Skeleton → Prop} (hg : Attains g r P)
    (hf : ∀ a r', g r = .ok a r' → P r'.skeleton → Attains (f a) r' Q) : Attains (g >>= f) r Q := by
  unfold Attains at hg ⊢
  change match EStateM.bind g f r with | .ok _ r' => _ | .error e _ => _
  rw [EStateM.bind]
  cases h : g r with
  | error e r₁ => simpa [h] using hg
  | ok a r₁ =>
    simp only [h] at hg
    exact hf a r₁ h hg

theorem bind (hg : Steady g) (hf : ∀ a, Steady (f a)) : Steady (g >>= f) :=
  fun r => bindAt (hg r) fun a r' _ h => h ▸ hf a r'

theorem getAt {f : Routine → Generating α} {r : Routine} {P : Skeleton → Prop}
    (hf : Attains (f r) r P) : Attains (MonadState.get >>= f) r P :=
  bindAt (P := fun _ => True) trivial fun _ _ h _ => by cases h; exact hf

theorem map {k : α → β} (hg : Steady g) : Steady (k <$> g) := by
  intro r
  unfold SteadyAt LeadsTo Attains
  change match EStateM.map k g r with | .ok _ r' => _ | .error e _ => _
  have h₁ := hg r
  unfold SteadyAt LeadsTo Attains at h₁
  rw [EStateM.map]
  cases h : g r <;> simpa [h] using h₁

theorem get : Steady (get : Generating Routine) := fun _ => rfl

theorem modifyGet {k : Routine → α × Routine} (hk : ∀ r, (k r).2.skeleton = r.skeleton) :
    Steady (modifyGet k) := hk

theorem modify {k : Routine → Routine} (hk : ∀ r, (k r).skeleton = r.skeleton) :
    Steady (modify k) := hk

theorem throw {e : Fault} (he : e.isLost = false) : Steady (throw e : Generating α) := fun _ => he

theorem refuse {c : Inconsistency} (hc : (Fault.report (.inconsistent c)).isLost = false) :
    Steady (refuse c : Generating α) := throw hc

theorem unsupported {c : Unsupported} : Steady (unsupported c : Generating α) :=
  bind get fun _ => throw rfl

theorem required {c : Inconsistency} {o : Option α}
    (hc : (Fault.report (.inconsistent c)).isLost = false) : Steady (required c o) := by
  cases o with
  | none => exact refuse hc
  | some a => exact pure

theorem ask {q : Routine → Except Fault α} (hq : ∀ r, Lossless (q r)) : Steady (ask q) := by
  intro r
  rw [SteadyAt, LeadsTo, Attains, Generating.ask]
  cases h : q r with
  | ok a => rfl
  | error e => exact hq r e h

theorem changeValues {k : Arena → Except Fault Arena} (hk : ∀ a, Lossless (k a)) :
    Steady (changeValues k) := by
  intro r
  rw [SteadyAt, LeadsTo, Attains, Generating.changeValues]
  cases h : k r.values with
  | ok values => rfl
  | error e => exact hk _ e h

theorem changeRegisters {k : RegisterFile → Except RegisterError RegisterFile} :
    Steady (changeRegisters k) := by
  intro r
  rw [SteadyAt, LeadsTo, Attains, Generating.changeRegisters]
  cases k r.registers with
  | ok registers => rfl
  | error e => cases e <;> rfl

theorem forM {γ : Type} {xs : List γ} {k : γ → Generating Unit}
    (hk : ∀ x, Steady (k x)) : Steady (xs.forM k) := by
  induction xs with
  | nil => exact pure
  | cons x xs ih => exact bind (hk x) fun _ => ih

theorem mapM {γ : Type} {xs : List γ} {k : γ → Generating β}
    (hk : ∀ x, Steady (k x)) : Steady (xs.mapM k) := by
  induction xs with
  | nil => exact pure
  | cons x xs ih =>
    rw [List.mapM_cons]
    exact bind (hk x) fun _ => bind ih fun _ => pure

theorem filterMapM {γ : Type} {xs : List γ} {k : γ → Generating (Option β)}
    (hk : ∀ x, Steady (k x)) : Steady (xs.filterMapM k) := by
  induction xs with
  | nil => exact pure
  | cons x xs ih =>
    rw [List.filterMapM_cons]
    refine bind (hk x) fun o => ?_
    cases o with
    | none => exact ih
    | some b => exact bind ih fun _ => pure

theorem optionForM {γ : Type} {o : Option γ} {k : γ → Generating Unit}
    (hk : ∀ x, Steady (k x)) : Steady (o.forM k) := by
  cases o with
  | none => exact pure
  | some x => exact hk x

theorem optionMapM {γ : Type} {o : Option γ} {k : γ → Generating β}
    (hk : ∀ x, Steady (k x)) : Steady (o.mapM k) := by
  cases o with
  | none => exact pure
  | some x => exact map (hk x)

theorem ite {c : Prop} [Decidable c] (hg : Steady g) (hh : Steady h) :
    Steady (if c then g else h) := by
  split
  · exact hg
  · exact hh

end Steady

/-! ## Values and registers -/

variable {v w : ValueId} {h : Handle} {f : Format} {r : Register} {p bank : Nat}

theorem cellOf_steady : Steady (cellOf v) := .ask fun _ => .cell

theorem handleOf_steady : Steady (handleOf v) := .bind cellOf_steady fun _ => .pure

theorem formatOf_steady : Steady (formatOf v) := .bind cellOf_steady fun _ => .pure

theorem isValid_steady : Steady (isValid v p) := .ask fun _ => .isValid

theorem isExpiring_steady : Steady (isExpiring v) := .ask fun _ => .isExpiring

theorem setHandle_steady : Steady (setHandle v h) := .changeValues fun _ => .setHandle

theorem createBriefly_steady : Steady (createBriefly h f) :=
  .bind (.modifyGet fun _ => rfl) fun _ => .bind .get fun _ =>
    .bind (.changeValues fun _ => .useAll) fun _ => .pure

theorem emit_steady {opcode : Opcode} {operands : List Operand} (ho : opcode.isControl = false) :
    Steady (emit opcode operands) :=
  .modify fun r => by simp [Routine.skeleton, Routine.kinds, Operation.isControl, ho]

theorem constantData_steady {c : Number} : Steady (constantData c) := by
  refine .modifyGet fun r => ?_
  split <;> rfl

theorem owner?_steady : Steady (owner? r) := .bind .get fun _ => .pure

theorem isUsed_steady : Steady (isUsed r) := .bind .get fun _ => .pure

theorem isVolatile_steady : Steady (isVolatile r) := .bind .get fun _ => .pure

theorem free?_steady : Steady (free? bank) := .ask fun _ => .expect

theorem freePreserved?_steady : Steady (freePreserved? bank) := .ask fun _ => .expect

theorem lock_steady : Steady (lock r) := .changeRegisters

theorem lockUsed_steady : Steady (lockUsed r) :=
  .bind isUsed_steady fun _ => .ite lock_steady .pure

theorem place_steady : Steady (place v r) := .bind .changeRegisters fun _ => setHandle_steady

theorem spill_steady : Steady (spill r) := by
  refine .bind owner?_steady fun o => ?_
  cases o with
  | none => exact .pure
  | some v =>
    exact .bind handleOf_steady fun _ => .bind .get fun _ => .bind isValid_steady fun _ =>
      .ite (.bind (.modifyGet fun _ => rfl) fun _ => .bind (emit_steady rfl) fun _ =>
        .bind setHandle_steady fun _ => .bind (.modify fun _ => rfl) fun _ => .changeRegisters)
        .changeRegisters

theorem victim_steady : Steady (victim bank) := by
  intro r
  unfold SteadyAt LeadsTo Attains victim
  rcases r.registers.evictable? bank .empty with ⟨_ | _, _⟩ <;> rfl

theorem allocate_steady : Steady (allocate bank v) := by
  refine .bind free?_steady fun o => ?_
  cases o with
  | none =>
    exact .bind victim_steady fun _ => .bind spill_steady fun _ => .bind .pure fun _ =>
      .bind .changeRegisters fun _ => .bind lock_steady fun _ => .pure
  | some r =>
    exact .bind .pure fun _ => .bind .changeRegisters fun _ => .bind lock_steady fun _ => .pure

theorem allocateResult_steady : Steady (allocateResult v) :=
  .bind formatOf_steady fun _ => .bind allocate_steady fun _ => .bind setHandle_steady fun _ =>
    .pure

theorem scratch_steady : Steady (scratch f) :=
  .bind createBriefly_steady fun _ => allocate_steady

/-! ## Operands -/

theorem indexableBase_steady {b : Base} : Steady (indexableBase b) := by
  unfold indexableBase
  split
  · exact .pure
  · exact .bind .get fun _ => .ite .pure <| .bind scratch_steady fun _ =>
      .bind (emit_steady rfl) fun _ => .pure

theorem emitScaled_steady {d i : Register} {k : Word} : Steady (emitScaled d i k) :=
  .bind .get fun _ => .ite (emit_steady rfl) (.bind (emit_steady rfl) fun _ => emit_steady rfl)

theorem scaledIndex_steady {i : Register} {k : Word} : Steady (scaledIndex i k) :=
  .bind .get fun _ => .ite .pure <| .bind scratch_steady fun _ => .bind emitScaled_steady fun _ =>
    .pure

theorem transferConstant_steady {c : Number} : Steady (transferConstant r c) :=
  .ite (.bind constantData_steady fun _ => emit_steady rfl) (emit_steady rfl)

section Loading

variable {load : Loading} (hl : ∀ v, Steady (load v))
include hl

theorem addressBase_steady : Steady (addressBase load v) := by
  refine .bind handleOf_steady fun h => ?_
  split
  · exact .pure
  · exact .bind (hl v) fun _ => .pure

theorem addressOf_steady : Steady (addressOf load h) := by
  unfold addressOf
  split
  · exact .pure
  · exact .pure
  · exact .pure
  · exact .bind (addressBase_steady hl) fun _ => .pure
  · refine .bind handleOf_steady fun h => ?_
    split
    · exact .bind (addressBase_steady hl) fun _ => .bind (.ask fun _ => .expect) fun _ => .pure
    · exact .bind (hl _) fun _ => .bind scaledIndex_steady fun _ =>
        .bind (addressBase_steady hl) fun _ => .bind indexableBase_steady fun _ => .pure
  · exact .refuse rfl

theorem transferSum_steady {m : ValueId} {k c : Word} {a : Option ValueId} :
    Steady (transferSum load r m k a c) :=
  .bind (hl m) fun _ => .bind (.optionMapM hl) fun _ => .bind .get fun _ =>
    .ite (emit_steady rfl) <| .bind emitScaled_steady fun _ =>
      .bind (.optionForM fun _ => emit_steady rfl) fun _ => .ite (emit_steady rfl) .pure

theorem transferInto_steady : Steady (transferInto load r h f) := by
  unfold transferInto
  split
  · exact .ite (emit_steady rfl) .pure
  · exact transferConstant_steady
  · exact emit_steady rfl
  · exact transferSum_steady hl
  · exact .refuse rfl
  · exact .refuse rfl
  · exact .bind (addressOf_steady hl) fun _ => emit_steady rfl

theorem loadStep_steady : Steady (loadStep load v) := by
  refine .bind handleOf_steady fun h => ?_
  split
  · exact .bind lockUsed_steady fun _ => .pure
  · exact .bind formatOf_steady fun _ => .bind allocate_steady fun _ =>
      .bind (transferInto_steady hl) fun _ => .pure

end Loading

theorem loadWithin_steady {fuel : Nat} : ∀ v, Steady (loadWithin fuel v) := by
  induction fuel with
  | zero => exact fun _ => .throw rfl
  | succ fuel ih => exact fun _ => loadStep_steady ih

theorem load_steady (v : ValueId) : Steady (load v) := .bind .get fun _ => loadWithin_steady v

theorem memoryOperand_steady : Steady (memoryOperand h) := addressOf_steady load_steady

theorem transferToRegister_steady : Steady (transferToRegister r h f) :=
  transferInto_steady load_steady

theorem loadAs_steady : Steady (loadAs v f) := by
  refine .bind formatOf_steady fun _ => .ite (load_steady v) (.ite .unsupported ?_)
  refine .bind handleOf_steady fun _ => ?_
  split
  · exact .bind createBriefly_steady load_steady
  · exact .bind (load_steady v) fun _ => .bind createBriefly_steady fun _ =>
      .bind allocate_steady fun _ => .bind (emit_steady rfl) fun _ => .pure

theorem sourceAs_steady : Steady (sourceAs v f) :=
  .bind formatOf_steady fun _ => .ite handleOf_steady (.bind loadAs_steady fun _ => .pure)

theorem reusable?_steady : Steady (reusable? v f) := by
  refine .bind handleOf_steady fun h => ?_
  split
  · exact .bind owner?_steady fun _ => .bind isExpiring_steady fun _ => .pure
  · exact .pure

theorem takeOver_steady : Steady (takeOver v r) :=
  .bind place_steady fun _ => .bind lock_steady fun _ => .pure

theorem reusableDestination_steady : Steady (reusableDestination v w) := by
  refine .bind formatOf_steady fun _ => .bind reusable?_steady fun o => ?_
  split
  · exact takeOver_steady
  · exact allocateResult_steady

theorem takeOverOrLoad_steady (o : Option Register) (f : Format) : Steady (match o with
    | some r => takeOver w r
    | none => do
      let source ← sourceAs v f
      let r ← allocateResult w
      transferToRegister r source f
      return r) := by
  split
  · exact takeOver_steady
  · exact .bind sourceAs_steady fun _ => .bind allocateResult_steady fun _ =>
      .bind transferToRegister_steady fun _ => .pure

theorem loadForWrite_steady : Steady (loadForWrite v w) := by
  refine .bind formatOf_steady fun f => .bind formatOf_steady fun _ => .ite ?_ ?_
  · refine .bind handleOf_steady fun h => ?_
    split
    · exact .bind owner?_steady fun _ => .bind isExpiring_steady fun _ =>
        .bind .pure fun o => takeOverOrLoad_steady o f
    · exact .bind .pure fun o => takeOverOrLoad_steady o f
  · exact .bind .pure fun o => takeOverOrLoad_steady o f

theorem operand_steady {access : Access} : Steady (operand v access) := by
  have loaded : Steady (return Operand.register (← load v)) := .bind (load_steady v) fun _ => .pure
  refine .bind handleOf_steady fun h => .bind formatOf_steady fun _ => .bind .get fun _ => ?_
  dsimp only
  split
  · exact .bind lockUsed_steady fun _ => .pure
  · exact .ite .pure loaded
  · exact .ite (.bind constantData_steady fun _ => .pure) loaded
  · exact .ite .pure loaded
  · exact .ite (.bind memoryOperand_steady fun _ => .pure) loaded

/-! ## Transfers -/

theorem reservedScratch_steady {c : Inconsistency}
    (hc : (Fault.report (.inconsistent c)).isLost = false) : Steady (reservedScratch f c) :=
  .bind .get fun _ => .required hc

theorem memorySource_steady : Steady (memorySource h) := by
  unfold memorySource
  split
  · exact .bind constantData_steady fun _ => .pure
  · exact memoryOperand_steady

theorem transferToMemory_steady {m : MemoryOperand} : Steady (transferToMemory m h f) := by
  have viaStack : Steady (do
      let s ← memorySource h
      emit .push [.memory s]
      emit .pop [.memory m]) :=
    .bind memorySource_steady fun _ => .bind (emit_steady rfl) fun _ => emit_steady rfl
  have viaRegister : Steady (do
      let r ← reservedScratch f .noScratch
      transferToRegister r h f
      emit .move [.memory m, .register r]) :=
    .bind (reservedScratch_steady rfl) fun _ => .bind transferToRegister_steady fun _ =>
      emit_steady rfl
  refine .bind .get fun _ => ?_
  split
  · exact emit_steady rfl
  · exact .ite (emit_steady rfl) (.ite viaStack viaRegister)
  · exact .ite viaStack viaRegister

theorem transfer_steady {d : Handle} : Steady (transfer d h f) := by
  unfold transfer
  split
  · exact transferToRegister_steady
  · exact .bind memoryOperand_steady fun _ => transferToMemory_steady

theorem moveInto_steady : Steady (moveInto h v) := by
  refine .bind formatOf_steady fun _ => ?_
  split
  · exact .bind handleOf_steady fun _ => transferToRegister_steady
  · refine .bind .get fun _ => .ite ?_ ?_
    · exact .bind operand_steady fun _ => .bind memoryOperand_steady fun _ => emit_steady rfl
    · exact .bind (.map (load_steady v)) fun _ => .bind memoryOperand_steady fun _ =>
        emit_steady rfl

theorem plainSource_steady : Steady (plainSource v) := by
  have loaded : Steady (return Handle.register (← load v)) := .bind (load_steady v) fun _ => .pure
  refine .bind handleOf_steady fun h => ?_
  split
  case h_7 => exact .pure
  all_goals exact loaded

theorem assignment?_steady {m : Handle × ValueId} : Steady (assignment? m) :=
  .bind formatOf_steady fun _ => .bind plainSource_steady fun _ => .pure

theorem saveDestination_steady {ps : List Assignment} {kept : List ValueId} {a : Assignment} :
    Steady (saveDestination ps kept a) := by
  unfold saveDestination
  split
  · refine .bind owner?_steady fun o => ?_
    split
    · exact .pure
    · exact .bind .get fun _ => .bind isValid_steady fun _ => .bind handleOf_steady fun _ =>
        .ite spill_steady .pure
  · exact .pure

theorem placeOperand_steady : Steady (placeOperand h) := by
  unfold placeOperand
  split
  · exact .pure
  · exact .bind memoryOperand_steady fun _ => .pure

theorem breakCycle_steady {a : Assignment} {rest : List Assignment} : Steady (breakCycle a rest) :=
  .bind .get fun _ => .ite
    (.bind placeOperand_steady fun _ => .bind placeOperand_steady fun _ =>
      .bind (emit_steady rfl) fun _ => .pure)
    (.bind (reservedScratch_steady rfl) fun _ => .bind transfer_steady fun _ => .pure)

theorem assignAll_steady {fuel : Nat} {ps : List Assignment} : Steady (assignAll fuel ps) := by
  induction fuel generalizing ps with
  | zero =>
    cases ps with
    | nil => exact .pure
    | cons => exact .throw rfl
  | succ fuel ih =>
    cases ps with
    | nil => exact .pure
    | cons a rest =>
      unfold assignAll
      dsimp only
      split
      · exact .bind (.optionForM fun _ => transfer_steady) fun _ => ih
      · exact .bind breakCycle_steady fun _ => ih

theorem parallelMove_steady {moves : List (Handle × ValueId)} {replaced : List ValueId} :
    Steady (parallelMove moves replaced) :=
  .bind (.filterMapM fun _ => assignment?_steady) fun _ =>
    .bind (.forM fun _ => .optionForM fun _ => lockUsed_steady) fun _ =>
      .bind (.forM fun _ => saveDestination_steady) fun _ => assignAll_steady

/-! ## Arithmetic -/

variable {opcode : Opcode} {source : Operand} {first second result : ValueId}

theorem emitTwo_steady (ho : opcode.isControl = false) : Steady (emitTwo opcode r source) :=
  emit_steady ho

theorem emitThree_steady {d : Register} (ho : opcode.isControl = false) :
    Steady (emitThree opcode d r source) :=
  emit_steady ho

theorem buildOverwriting_steady (ho : opcode.isControl = false) :
    Steady (buildOverwriting opcode first result source) :=
  .bind loadForWrite_steady fun _ => emitTwo_steady ho

theorem buildDecimal_steady (ho : opcode.isControl = false) :
    Steady (buildDecimal opcode first second result) := by
  refine .bind .get fun _ => .ite ?_ ?_
  · refine .bind formatOf_steady fun _ => .ite ?_ ?_
    · exact .bind operand_steady fun _ => buildOverwriting_steady ho
    · exact .bind (.map loadAs_steady) fun _ => buildOverwriting_steady ho
  · exact .bind loadAs_steady fun _ => .bind loadAs_steady fun _ =>
      .bind reusableDestination_steady fun _ => emitThree_steady ho

theorem isAddressSum_steady : Steady (isAddressSum first second) := by
  refine .bind handleOf_steady fun _ => ?_
  split
  · refine .bind isExpiring_steady fun _ => .ite .pure <| .bind handleOf_steady fun _ => ?_
    split <;> exact .pure
  · exact .pure

theorem buildAddressSum_steady : Steady (buildAddressSum first second result) := by
  refine .bind (load_steady _) fun _ => .bind operand_steady fun _ => ?_
  split
  · exact .bind .pure fun _ => .bind allocateResult_steady fun _ => emit_steady rfl
  · exact .bind .pure fun _ => .bind allocateResult_steady fun _ => emit_steady rfl
  · exact .bind (.refuse rfl) fun _ => .bind allocateResult_steady fun _ => emit_steady rfl

theorem buildAdditive_steady (ho : opcode.isControl = false) :
    Steady (buildAdditive opcode first second result) := by
  refine .bind formatOf_steady fun _ => .ite (buildDecimal_steady ho) ?_
  refine .bind .get fun _ => .ite ?_ ?_
  · exact .bind (load_steady _) fun _ => .bind operand_steady fun _ =>
      .bind reusableDestination_steady fun _ => emitThree_steady ho
  · exact .bind isAddressSum_steady fun _ => .ite buildAddressSum_steady
      (.bind operand_steady fun _ => buildOverwriting_steady ho)

theorem buildShift_steady {k : Nat} : Steady (buildShift first k result) := by
  refine .bind .get fun _ => .ite ?_ ?_
  · exact .bind (load_steady _) fun _ => .bind reusableDestination_steady fun _ =>
      emitThree_steady rfl
  · refine .bind handleOf_steady fun _ => .bind isExpiring_steady fun _ => .ite ?_ ?_
    · exact .bind (load_steady _) fun _ => .bind allocateResult_steady fun _ => emit_steady rfl
    · exact buildOverwriting_steady rfl

theorem buildAddressProduct_steady {k : Nat} : Steady (buildAddressProduct first k result) :=
  .bind (load_steady _) fun _ => .bind reusableDestination_steady fun _ => emit_steady rfl

theorem buildShiftedSum_steady {k : Nat} : Steady (buildShiftedSum first k result) :=
  .bind (load_steady _) fun _ => .bind reusableDestination_steady fun _ => emit_steady rfl

theorem buildProduct_steady : Steady (buildProduct first second result) :=
  .bind .get fun _ => .ite
    (.bind operand_steady fun _ => buildOverwriting_steady rfl)
    (.bind (load_steady _) fun _ => .bind (load_steady _) fun _ =>
      .bind reusableDestination_steady fun _ => emitThree_steady rfl)

theorem buildConstantProduct_steady {k : Word} :
    Steady (buildConstantProduct first k second result) :=
  .bind .get fun _ => .ite
    (.bind operand_steady fun _ => .bind reusableDestination_steady fun _ => emit_steady rfl)
    buildProduct_steady

theorem buildScaled_steady {k : Word} : Steady (buildScaled first k second result) := by
  unfold buildScaled
  split
  · exact buildShift_steady
  · refine .bind .get fun _ => ?_
    split
    · exact .ite buildShiftedSum_steady
        (.ite buildAddressProduct_steady buildConstantProduct_steady)
    · exact buildConstantProduct_steady

theorem integerOf?_steady : Steady (integerOf? v) := by
  refine .bind handleOf_steady fun _ => ?_
  split <;> exact .pure

theorem buildMultiplication_steady : Steady (buildMultiplication first second result) := by
  refine .bind formatOf_steady fun _ => .ite (buildDecimal_steady rfl) ?_
  refine .bind integerOf?_steady fun _ => .bind integerOf?_steady fun _ => ?_
  split
  · exact buildScaled_steady
  · exact buildScaled_steady
  · exact buildProduct_steady

/-- An operation that can write another register is no label and no jump, and neither is the one
in its place. -/
theorem isControl_of_retarget {x64 : Bool} {old new : Register} {o o' : Operation}
    (h : o.retarget? x64 old new = some o') : o.isControl = false ∧ o'.isControl = false := by
  unfold Operation.retarget? at h
  unfold Operation.isControl
  grind [Opcode.isControl]

theorem filter_isControl_replace {os : List Operation} {o o' : Operation}
    (hl : os.getLast? = some o) (ho : o.isControl = false) (ho' : o'.isControl = false) :
    (os.dropLast ++ [o']).filter (·.isControl) = os.filter (·.isControl) := by
  obtain ⟨before, rfl⟩ := List.getLast?_eq_some_iff.mp hl
  simp [ho, ho']

theorem skeleton_replace {q : Routine} {p : Nat} {i i' : Instruction}
    (hi : q.instructions[p]? = some i) (hk : i'.kind = i.kind)
    (ho : i'.operations.filter (·.isControl) = i.operations.filter (·.isControl)) :
    { q with instructions := q.instructions.setIfInBounds p i' }.skeleton = q.skeleton := by
  have replaced {α : Type} (k : Instruction → α) (hk : k i' = k i) :
      (q.instructions.setIfInBounds p i').toList.map k = q.instructions.toList.map k := by
    obtain ⟨hp, rfl⟩ := Array.getElem?_eq_some_iff.mp hi
    rw [Array.toList_setIfInBounds, List.map_set, hk]
    refine List.ext_getElem? fun j => ?_
    rw [List.getElem?_set, List.getElem?_map]
    split
    next h =>
      subst h
      simp [hp]
    next => rfl
  have hkinds := replaced (·.kind) hk
  have hcontrol := replaced (fun i => i.operations.filter (·.isControl)) ho
  simp only [Routine.skeleton, Routine.kinds, hkinds, hcontrol]

theorem redirect_steady : Steady (redirect v r w) := by
  refine .bind cellOf_steady fun c => ?_
  split
  case h_2 => exact .pure
  refine .bind .get fun _ => .ite .pure <| .bind isExpiring_steady fun _ => .ite .pure <|
    .bind handleOf_steady fun _ => ?_
  split
  case h_2 => exact .pure
  refine .bind owner?_steady fun _ => .ite .pure fun q => Steady.getAt ?_
  split
  case h_2 => exact Steady.pure q
  next i hi =>
    split
    · exact Steady.pure q
    refine Steady.getAt ?_
    split
    case h_2 => exact Steady.pure q
    next o ho =>
      obtain ⟨o₀, hl, hr⟩ := Option.bind_eq_some_iff.mp ho
      obtain ⟨h₁, h₂⟩ := isControl_of_retarget hr
      refine Steady.bindAt (P := (· = q.skeleton))
        (skeleton_replace hi rfl (filter_isControl_replace hl h₁ h₂)) fun _ q' _ h => ?_
      rw [← h]
      refine Steady.bind .changeRegisters (fun _ => .bind .changeRegisters fun _ =>
        .bind setHandle_steady fun _ => .ite ?_ .pure) q'
      exact .bind setHandle_steady fun _ => .pure

/-! ## Calls -/

theorem relocate_steady {d : Register} : Steady (relocate v r d) :=
  .bind (emit_steady rfl) fun _ => .bind .changeRegisters fun _ => place_steady

theorem evacuateFrom_steady : Steady (evacuateFrom r v) := by
  refine .bind .get fun _ => .bind isValid_steady fun _ => .bind isVolatile_steady fun _ =>
    .bind handleOf_steady fun _ => .ite ?_ .pure
  refine .bind formatOf_steady fun _ => .bind freePreserved?_steady fun o => ?_
  split
  · exact relocate_steady
  · exact spill_steady

theorem buildEvacuate_steady : Steady buildEvacuate :=
  .bind .get fun _ => .forM fun _ => evacuateFrom_steady

theorem releaseVolatile_steady : Steady releaseVolatile :=
  .bind .get fun _ => .forM fun _ => .bind isVolatile_steady fun _ => .ite .changeRegisters .pure

theorem buildCall_steady {symbol : String} {arguments : List ValueId} :
    Steady (buildCall symbol arguments result) := by
  refine .bind .get fun _ => .bind (.mapM fun _ => formatOf_steady) fun _ => ?_
  split
  · exact .refuse rfl
  · exact .bind parallelMove_steady fun _ => .bind (emit_steady rfl) fun _ =>
      .bind releaseVolatile_steady fun _ => .bind formatOf_steady fun _ => place_steady

theorem buildReturn_steady {value? : Option ValueId} : Steady (buildReturn value?) := by
  refine .bind (.optionForM fun v => ?_) fun _ => emit_steady rfl
  refine .bind formatOf_steady fun _ => .bind .get fun _ => .bind isUsed_steady fun _ => .ite ?_ ?_
  · exact .bind .pure fun _ => .ite
      (.bind handleOf_steady fun _ => transferToRegister_steady) .pure
  · exact .bind redirect_steady fun _ => .ite
      (.bind handleOf_steady fun _ => transferToRegister_steady) .pure

/-! ## Merging -/

theorem planReturn_steady {entries : List Entry} {survivingOnly : Bool} {p : MergePair} :
    Steady (planReturn entries survivingOnly p) := by
  refine .bind .get fun _ => .bind isValid_steady fun _ => ?_
  split
  · exact .pure
  · exact .ite .pure <| .ite .pure <| .ite (.bind setHandle_steady fun _ => .pure)
      (.bind handleOf_steady fun _ => .pure)

theorem settleAt_steady : Steady (settleAt v h) :=
  .bind (.optionForM fun _ => .changeRegisters) fun _ => setHandle_steady

theorem cacheSlot_steady {preserved : Bool} : Steady (cacheSlot v h preserved) := by
  have freeFor?_steady {bank : Nat} : Steady (freeFor? bank preserved) :=
    .ite freePreserved?_steady free?_steady
  refine .bind formatOf_steady fun _ => .bind freeFor?_steady fun _ => ?_
  split
  · exact .pure
  · exact .bind transferToRegister_steady fun _ => place_steady

theorem preserve_steady : Steady (preserve v r) := by
  refine .bind isVolatile_steady fun _ => .bind owner?_steady fun _ => .ite ?_ .pure
  refine .bind formatOf_steady fun _ => .bind freePreserved?_steady fun _ => ?_
  split
  · exact relocate_steady
  · exact .pure

theorem buildCache_steady {vars : List Binding} {preserved : Bool} :
    Steady (buildCache vars preserved) := by
  refine .forM fun _ => .bind .get fun _ => .bind isValid_steady fun _ => .ite ?_ .pure
  refine .bind handleOf_steady fun _ => ?_
  split
  · exact .ite preserve_steady .pure
  · exact .ite cacheSlot_steady .pure

/-! ## Other instructions -/

theorem buildParameters_steady {parameters : List ValueId} :
    Steady (buildParameters parameters) := by
  refine .bind .get fun _ => .bind (.mapM fun _ => formatOf_steady) fun _ => ?_
  split
  · exact .refuse rfl
  · exact .forM fun _ => place_steady

theorem buildCompare_steady : Steady (buildCompare first second) := by
  refine .bind .get fun _ => .bind formatOf_steady fun _ => .bind formatOf_steady fun _ =>
    .ite (.bind loadAs_steady fun _ => .ite ?_ ?_) ?_
  · exact .bind operand_steady fun _ => emitTwo_steady rfl
  · exact .bind (.map loadAs_steady) fun _ => emitTwo_steady rfl
  · exact .bind (load_steady _) fun _ => .bind operand_steady fun _ => emitTwo_steady rfl

theorem redirectOrMove_steady {h : Handle} : Steady (do
    let redirected ←
      match h.register? with
      | some r => if ← isUsed r then pure false else redirect second r first
      | none => pure false
    if !redirected then
      let f ← formatOf first
      if f.isDecimal && !(← formatOf second).isDecimal then
        let converted ← loadAs second f
        emit .move [.memory (← memoryOperand h), .register converted]
      else moveInto h second) := by
  have stored {redirected : Bool} : Steady (do
      if !redirected then
        let f ← formatOf first
        if f.isDecimal && !(← formatOf second).isDecimal then
          let converted ← loadAs second f
          emit .move [.memory (← memoryOperand h), .register converted]
        else moveInto h second) := by
    refine .ite (.bind formatOf_steady fun _ => .bind formatOf_steady fun _ => .ite ?_ ?_) .pure
    · exact .bind loadAs_steady fun _ => .bind memoryOperand_steady fun _ => emit_steady rfl
    · exact moveInto_steady
  split
  · exact .bind isUsed_steady fun _ => .ite (.bind .pure fun _ => stored)
      (.bind redirect_steady fun _ => stored)
  · exact .bind .pure fun _ => stored

theorem buildMove_steady : Steady (buildMove first second) :=
  .bind handleOf_steady fun _ =>
    .ite (.bind (.refuse rfl) fun _ => redirectOrMove_steady) redirectOrMove_steady

theorem buildDuplicate_steady : Steady (buildDuplicate v result) :=
  .bind formatOf_steady fun _ => .bind sourceAs_steady fun _ => .bind allocateResult_steady fun _ =>
    transferToRegister_steady

theorem buildRead_steady : Steady (buildRead v) := by
  refine .bind handleOf_steady fun _ => ?_
  split
  · exact .bind isUsed_steady fun _ => .ite .changeRegisters .pure
  · exact .pure

theorem releaseExpired_steady : Steady releaseExpired :=
  .bind .get fun _ => .forM fun _ => .bind handleOf_steady fun _ => .bind .get fun _ =>
    .bind isValid_steady fun _ => .ite .changeRegisters .pure

end Generating

end Codegen
