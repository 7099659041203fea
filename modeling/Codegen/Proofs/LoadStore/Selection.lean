import Codegen.Proofs.Ensures
import Codegen.Proofs.LoadStore.Form
import Codegen.Proofs.Value.Handles
import Codegen.Selection.Build

/-!
# Selection in load and store form

On arm64 every step of the selection emits operations of the grammar alone. An operation takes its
form from what the steps before it give: the address of a place is one of a load, an operand is a
register or an immediate that fits, and no value is placed in a sum.

* `Handle.IsPlain`: a place that is no sum of values;
* `Routine.IsLoadStore`: **the invariant of the selection**;
* `Generating.Conforms`, `Yields`: the steps that keep it;
* `addressOf_yields`, `operand_yields`: **the forms of addresses and operands**;
* `load_conforms`, `parallelMove_conforms`, `redirect_conforms`, ...: the steps of the selection;
* `build_conforms`: **the build of a function**.
-/

namespace Codegen

/-- The place is no sum of values. -/
def Handle.IsPlain : Handle → Prop
  | expression .. => False
  | _ => True

/-- **The invariant of the selection**: operations are in load and store form, and no value is or was
placed in a sum. -/
structure Routine.IsLoadStore (r : Routine) : Prop where
  architecture : r.architecture = .arm64
  values : r.values.AllHandles Handle.IsPlain
  snapshots : ∀ s ∈ r.snapshots, ∀ h ∈ s.2.handles, h.IsPlain
  entries : ∀ e ∈ r.entries, ∀ x ∈ e.2, x.handle.IsPlain
  instructions : ∀ i ∈ r.instructions, ∀ o ∈ i.operations, o.IsLoadStore
  operations : ∀ o ∈ r.operations, o.IsLoadStore

theorem Routine.IsLoadStore.isX64 {r : Routine} (h : r.IsLoadStore) : r.isX64 = false := by
  rw [Routine.isX64, h.architecture]
  rfl

namespace Generating

variable {α : Type}

/-- The step emits operations in load and store form, and its value has a property. -/
abbrev Yields (g : Generating α) (Q : α → Prop) : Prop := Ensures Routine.IsLoadStore g Q

/-- The step emits operations in load and store form. -/
abbrev Conforms (g : Generating α) : Prop := Preserves Routine.IsLoadStore g

variable {v w : ValueId} {h : Handle} {f : Format} {r d : Register} {p bank : Nat}

/-! ## Steps on values and registers -/

theorem notX64 {q : Routine} {Q : α → Prop} {g k : Generating α} (hq : q.IsLoadStore)
    (hk : Yields k Q) : Yields (if q.isX64 = true then g else k) Q :=
  .ite (fun hx => by simp [hq.isX64] at hx) fun _ => hk

theorem ofArm64 {q : Routine} {Q : α → Prop} {g k : Generating α} (hq : q.IsLoadStore)
    (hg : Yields g Q) : Yields (if (!q.isX64) = true then g else k) Q :=
  .ite (fun _ => hg) fun hx => by simp [hq.isX64] at hx

theorem handleOf_yields : Yields (handleOf v) Handle.IsPlain := fun r h r' hr ht => by
  obtain ⟨⟨c, hc, rfl⟩, rfl⟩ := takes_handleOf.mp ht
  exact ⟨hr, hr.values v c hc⟩

theorem setHandle_conforms (hh : h.IsPlain) : Conforms (setHandle v h) :=
  .changeValues fun _ _ hr hv => { hr with values := hr.values.setHandle hh hv }

theorem registers_conform {k : RegisterFile → Except RegisterError RegisterFile} :
    Conforms (changeRegisters k) :=
  .changeRegisters fun _ _ hr _ => { hr with }

theorem createBriefly_conforms (hh : h.IsPlain) : Conforms (createBriefly h f) :=
  .seq (.modifyGet fun _ hr => { hr with values := hr.values.create hh }) fun _ =>
    .seq Ensures.get.preserves fun _ =>
      .seq (.changeValues fun _ _ hr hv => { hr with values := hr.values.useAt hv }) fun _ =>
        .pure trivial

theorem emit_conforms {c : Opcode} {os : List Operand} (ho : Operation.IsLoadStore ⟨c, os⟩) :
    Conforms (emit c os) :=
  .modify fun _ hr => { hr with
    operations := by
      simpa [or_imp, forall_and] using ⟨hr.operations, ho⟩ }

theorem constantData_conforms {n : Number} : Conforms (constantData n) := by
  refine .modifyGet fun r hr => ?_
  split <;> exact { hr with }

theorem owner?_conforms : Conforms (owner? r) := .seq Ensures.get.preserves fun _ => .pure trivial

theorem isUsed_conforms : Conforms (isUsed r) := .seq Ensures.get.preserves fun _ => .pure trivial

theorem isVolatile_conforms : Conforms (isVolatile r) :=
  .seq Ensures.get.preserves fun _ => .pure trivial

theorem lockUsed_conforms : Conforms (lockUsed r) :=
  .seq isUsed_conforms fun _ => .ite (fun _ => registers_conform) fun _ => .pure trivial

theorem place_conforms : Conforms (place v r) :=
  .seq registers_conform fun _ => setHandle_conforms trivial

theorem isLoadable_slot {k : SlotKey} : (MemoryOperand.displaced (.slot k) 0).IsLoadable :=
  .displaced fun _ _ => rfl

theorem spill_conforms : Conforms (spill r) := by
  refine .seq owner?_conforms fun o => ?_
  cases o with
  | none => exact .pure trivial
  | some v =>
    refine .seq handleOf_yields.preserves fun _ => .seq Ensures.get.preserves fun _ =>
      .seq isValid_preserves fun _ => .ite (fun _ => ?_) fun _ => registers_conform
    exact .seq (.modifyGet fun _ hr => { hr with }) fun _ =>
      .seq (emit_conforms (.store r isLoadable_slot)) fun _ =>
        .seq (setHandle_conforms trivial) fun _ =>
          .seq (.modify fun _ hr => { hr with }) fun _ => registers_conform

theorem victim_conforms : Conforms (victim bank) := fun q _ q' hq ht => by
  unfold Takes victim at ht
  split at ht
  · cases ht
    exact ⟨{ hq with }, trivial⟩
  · cases ht

theorem allocate_conforms : Conforms (allocate bank v) := by
  refine .seq .ask fun o => ?_
  have given (r : Register) : Conforms (do
      changeRegisters (·.assign r v)
      lock r
      return r) :=
    .seq registers_conform fun _ => .seq registers_conform fun _ => .pure trivial
  cases o with
  | none =>
    exact .seq victim_conforms fun r => .seq spill_conforms fun _ =>
      .seq (.pure trivial) fun r => given r
  | some r => exact .seq (.pure trivial) fun r => given r

theorem allocateResult_conforms : Conforms (allocateResult v) :=
  .seq formatOf_preserves fun _ => .seq allocate_conforms fun _ =>
    .seq (setHandle_conforms trivial) fun _ => .pure trivial

theorem scratch_conforms : Conforms (scratch f) :=
  .seq (createBriefly_conforms trivial) fun _ => allocate_conforms

/-! ## Operands -/

theorem indexableBase_yields {b : Base} (hb : ∀ i, b ≠ .constant i) :
    Yields (indexableBase b) fun b => ∃ r, b = .register r := by
  cases b with
  | register r => exact .pure ⟨r, rfl⟩
  | constant i => exact absurd rfl (hb i)
  | slot k =>
    exact .bind .get fun _ hq => notX64 hq <| .seq scratch_conforms fun r =>
      .seq (emit_conforms (.address r fun _ _ => rfl)) fun _ => .pure ⟨r, rfl⟩

theorem emitScaled_conforms {i : Register} {k : Word} : Conforms (emitScaled d i k) :=
  .bind .get fun _ hq => notX64 hq <|
    .seq (emit_conforms (.word d k)) fun _ => emit_conforms (.product d i d)

theorem scaledIndex_yields {i : Register} {k : Word} :
    Yields (scaledIndex i k) fun x => x.2 = 1 ∨ x.2 = 8 := by
  refine .bind .get fun q hq => .ite (fun hk => .pure ?_) fun _ => ?_
  · rw [hq.architecture] at hk
    simpa [Architecture.scalesBy] using hk
  · exact .seq scratch_conforms fun _ => .seq emitScaled_conforms fun _ => .pure (.inl rfl)

theorem transferConstant_conforms {n : Number} : Conforms (transferConstant r n) :=
  .ite (fun _ => .seq constantData_conforms fun _ =>
    emit_conforms (.load r (.displaced fun _ _ => rfl))) fun _ => emit_conforms (.word r _)

section Loading

variable {load : Loading} (hl : ∀ v, Conforms (load v))
include hl

theorem addressBase_yields : Yields (addressBase load v) fun b => ∀ i, b ≠ .constant i := by
  refine .seq handleOf_yields.preserves fun h => ?_
  split
  · exact .pure (by simp)
  · exact .seq (hl v) fun _ => .pure (by simp)

/-- **The address of a place** is one that loads have. -/
theorem addressOf_yields : Yields (addressOf load h) MemoryOperand.IsLoadable := by
  unfold addressOf
  split
  · exact .pure isLoadable_slot
  · exact .pure isLoadable_slot
  · exact .pure (.displaced fun _ _ => rfl)
  · exact .last (addressBase_yields hl) fun b hb => .displaced fun i hi => absurd hi (hb i)
  · refine .seq handleOf_yields.preserves fun h => ?_
    split
    · exact .bind (addressBase_yields hl) fun b hb => .seq .ask fun _ =>
        .pure (.displaced fun i hi => absurd hi (hb i))
    · refine .seq (hl _) fun _ => .bind scaledIndex_yields fun x hx =>
        .bind (addressBase_yields hl) fun b hb => .last (indexableBase_yields hb) ?_
      rintro b ⟨r, rfl⟩
      exact .indexed hx
  · exact .refuse

theorem transferInto_conforms (hh : h.IsPlain) : Conforms (transferInto load r h f) := by
  cases h with
  | register other => exact .ite (fun _ => emit_conforms (.transfer r other)) fun _ => .pure trivial
  | constant n => exact transferConstant_conforms
  | inline identity bytes => exact emit_conforms (.address r fun _ _ => rfl)
  | expression => exact hh.elim
  | none | modifier => exact .refuse
  | _ => exact .bind (addressOf_yields hl) fun _ hm => emit_conforms (.load r hm)

theorem loadStep_conforms : Conforms (loadStep load v) := by
  refine .bind handleOf_yields fun h hh => ?_
  split
  · exact .seq lockUsed_conforms fun _ => .pure trivial
  · exact .seq formatOf_preserves fun _ => .seq allocate_conforms fun _ =>
      .seq (transferInto_conforms hl hh) fun _ => .pure trivial

end Loading

theorem loadWithin_conforms {fuel : Nat} : ∀ v, Conforms (loadWithin fuel v) := by
  induction fuel with
  | zero => exact fun _ => .throw
  | succ fuel ih => exact fun _ => loadStep_conforms ih

theorem load_conforms (v : ValueId) : Conforms (load v) :=
  .seq Ensures.get.preserves fun _ => loadWithin_conforms v

theorem memoryOperand_yields : Yields (memoryOperand h) MemoryOperand.IsLoadable :=
  addressOf_yields load_conforms

theorem transferToRegister_conforms (hh : h.IsPlain) : Conforms (transferToRegister r h f) :=
  transferInto_conforms load_conforms hh

theorem loadAs_conforms : Conforms (loadAs v f) := by
  refine .seq formatOf_preserves fun _ => .ite (fun _ => load_conforms v) fun _ =>
    .ite (fun _ => .unsupported) fun _ => .seq handleOf_yields.preserves fun h => ?_
  split
  · exact .seq (createBriefly_conforms trivial) load_conforms
  · exact .seq (load_conforms v) fun i => .seq (createBriefly_conforms trivial) fun _ =>
      .seq allocate_conforms fun d => .seq (emit_conforms (.convert d i)) fun _ => .pure trivial

theorem sourceAs_yields : Yields (sourceAs v f) Handle.IsPlain :=
  .seq formatOf_preserves fun _ => .ite (fun _ => handleOf_yields) fun _ =>
    .seq loadAs_conforms fun _ => .pure trivial

theorem reusable?_conforms : Conforms (reusable? v f) := by
  refine .seq handleOf_yields.preserves fun h => ?_
  split
  · exact .seq owner?_conforms fun _ => .seq isExpiring_preserves fun _ => .pure trivial
  · exact .pure trivial

theorem takeOver_conforms : Conforms (takeOver v r) :=
  .seq place_conforms fun _ => .seq registers_conform fun _ => .pure trivial

theorem reusableDestination_conforms : Conforms (reusableDestination v w) := by
  refine .seq formatOf_preserves fun _ => .seq reusable?_conforms fun o => ?_
  split
  · exact takeOver_conforms
  · exact allocateResult_conforms

/-- **The second operand** of an operation is a register or an immediate that fits. -/
theorem operand_yields {access : Access} : Yields (operand v access) Operand.IsSmall := by
  have loaded : Yields (return Operand.register (← load v)) Operand.IsSmall :=
    .seq (load_conforms v) fun r => .pure (.register r)
  refine .seq handleOf_yields.preserves fun h => .seq formatOf_preserves fun _ =>
    .bind .get fun q hq => ?_
  have hx : q.architecture.isX64 = false := hq.isX64
  simp only [hx, Bool.false_eq_true, and_false, false_and, if_false]
  split
  · exact .seq lockUsed_conforms fun _ => .pure (.register _)
  · refine .ite (fun hc => .pure (.immediate ?_)) fun _ => loaded
    have hc := hc.2.2
    rw [hq.architecture] at hc
    simpa [Architecture.fitsImmediate] using hc
  all_goals exact loaded

/-! ## Transfers -/

theorem reservedScratch_conforms {c : Inconsistency} : Conforms (reservedScratch f c) :=
  .seq Ensures.get.preserves fun _ => Ensures.required.preserves

theorem transferToMemory_conforms {m : MemoryOperand} (hm : m.IsLoadable) (hh : h.IsPlain) :
    Conforms (transferToMemory m h f) := by
  have viaRegister : Conforms (do
      let r ← reservedScratch f .noScratch
      transferToRegister r h f
      emit .move [.memory m, .register r]) :=
    .seq reservedScratch_conforms fun r => .seq (transferToRegister_conforms hh) fun _ =>
      emit_conforms (.store r hm)
  refine .bind .get fun q hq => ?_
  simp only [hq.isX64, Bool.false_and, Bool.false_eq_true, if_false]
  split
  · exact emit_conforms (.store _ hm)
  all_goals exact viaRegister

theorem transfer_conforms {d : Handle} (hd : d.IsPlain) (hh : h.IsPlain) :
    Conforms (transfer d h f) := by
  unfold transfer
  split
  · exact transferToRegister_conforms hh
  · exact .bind memoryOperand_yields fun _ hm => transferToMemory_conforms hm hh

theorem moveInto_conforms : Conforms (moveInto h v) := by
  refine .seq formatOf_preserves fun f => ?_
  split
  · exact .bind handleOf_yields fun _ => transferToRegister_conforms
  · refine .bind .get fun q hq => ?_
    simp only [hq.isX64, Bool.false_and, Bool.false_eq_true, if_false]
    exact .bind (.map (R := fun x => ∃ r, x = .register r) (load_conforms v) fun r _ => ⟨r, rfl⟩)
      fun x ⟨r, hx⟩ => .bind memoryOperand_yields fun m hm =>
        hx ▸ emit_conforms (.store r hm)

end Generating

/-- Neither place of the assignment is a sum. -/
def Assignment.IsPlain (a : Assignment) : Prop := a.destination.IsPlain ∧ a.source.IsPlain

namespace Generating

variable {a : Assignment} {ps rest : List Assignment}

theorem plainSource_yields : Yields (plainSource v) Handle.IsPlain := by
  have loaded : Yields (return Handle.register (← load v)) Handle.IsPlain :=
    .seq (load_conforms v) fun _ => .pure trivial
  refine .bind handleOf_yields fun h hh => ?_
  split
  case h_7 => exact .pure hh
  all_goals exact loaded

theorem assignment?_yields {m : Handle × ValueId} (hm : m.1.IsPlain) :
    Yields (assignment? m) fun o => ∀ a, o = some a → a.IsPlain := by
  refine .seq formatOf_preserves fun f => .bind plainSource_yields fun h hh => .pure fun a ha => ?_
  split at ha
  · cases ha
  · cases ha
    exact ⟨hm, hh⟩

theorem saveDestination_conforms {kept : List ValueId} : Conforms (saveDestination ps kept a) := by
  unfold saveDestination
  split
  · refine .seq owner?_conforms fun o => ?_
    split
    · exact .pure trivial
    · exact .seq Ensures.get.preserves fun _ => .seq isValid_preserves fun _ =>
        .seq handleOf_yields.preserves fun _ =>
          .ite (fun _ => spill_conforms) fun _ => .pure trivial
  · exact .pure trivial

theorem breakCycle_yields (ha : a.IsPlain) (hr : ∀ b ∈ rest, b.IsPlain) :
    Yields (breakCycle a rest) fun ps => ∀ b ∈ ps, b.IsPlain := by
  refine .bind .get fun q hq => .ite (fun hx => ?_) fun _ => ?_
  · simp [isExchangeable, hq.isX64] at hx
  · refine .seq reservedScratch_conforms fun r => .seq (transfer_conforms trivial ha.1) fun _ =>
      .pure fun b hb => ?_
    obtain ⟨b', hb', rfl⟩ := List.mem_map.mp hb
    have hb' := List.forall_mem_cons.mpr ⟨ha, hr⟩ b' hb'
    split
    · exact ⟨hb'.1, trivial⟩
    · exact hb'

theorem assignAll_conforms {fuel : Nat} (hp : ∀ a ∈ ps, a.IsPlain) :
    Conforms (assignAll fuel ps) := by
  induction fuel generalizing ps with
  | zero =>
    cases ps with
    | nil => exact .pure trivial
    | cons => exact .throw
  | succ fuel ih =>
    cases ps with
    | nil => exact .pure trivial
    | cons a rest =>
      unfold assignAll
      dsimp only
      split
      next i _ =>
        refine .seq ?_ fun _ => ih fun b hb => hp b ((List.eraseIdx_sublist _ _).subset hb)
        cases hi : (a :: rest)[i]? with
        | none => exact .pure trivial
        | some b =>
          have hb := hp b (List.mem_of_getElem? hi)
          exact transfer_conforms hb.1 hb.2
      next =>
        exact .bind (breakCycle_yields (hp a List.mem_cons_self)
          fun b hb => hp b (List.mem_cons_of_mem _ hb)) fun _ => ih

theorem parallelMove_conforms {moves : List (Handle × ValueId)} {replaced : List ValueId}
    (hm : ∀ m ∈ moves, m.1.IsPlain) : Conforms (parallelMove moves replaced) :=
  .bind (.filterMapM fun m h => assignment?_yields (hm m h)) fun _ hp =>
    .seq (.forM fun _ _ => .optionForM fun _ => lockUsed_conforms) fun _ =>
      .seq (.forM fun _ _ => saveDestination_conforms) fun _ => assignAll_conforms hp

/-! ## Arithmetic -/

variable {opcode : Opcode} {first second result : ValueId} {k : Nat}

theorem buildDecimal_conforms
    (ho : ∀ d l r, Operation.IsLoadStore ⟨opcode, [.register d, .register l, .register r]⟩) :
    Conforms (buildDecimal opcode first second result) :=
  .bind .get fun _ hq => notX64 hq <| .seq loadAs_conforms fun l => .seq loadAs_conforms fun r =>
    .seq reusableDestination_conforms fun d => emit_conforms (ho d l r)

theorem buildAdditive_conforms (ho : opcode = .add ∨ opcode = .subtract) :
    Conforms (buildAdditive opcode first second result) :=
  .seq formatOf_preserves fun _ =>
    .ite (fun _ => buildDecimal_conforms fun d l r => .sum ho d l (.register r)) fun _ =>
      .bind .get fun _ hq => ofArm64 hq <| .seq (load_conforms _) fun l =>
        .bind operand_yields fun _ hx => .seq reusableDestination_conforms fun d =>
          emit_conforms (.sum ho d l hx)

theorem buildShift_conforms (hk : k < 64) : Conforms (buildShift first k result) :=
  .bind .get fun _ hq => ofArm64 hq <| .seq (load_conforms _) fun l =>
    .seq reusableDestination_conforms fun d => emit_conforms (.shift d l hk)

theorem buildShiftedSum_conforms (hk : k < 64) : Conforms (buildShiftedSum first k result) :=
  .seq (load_conforms _) fun l => .seq reusableDestination_conforms fun d =>
    emit_conforms (.shiftedSum d l l hk)

theorem buildProduct_conforms : Conforms (buildProduct first second result) :=
  .bind .get fun _ hq => notX64 hq <| .seq (load_conforms _) fun l => .seq (load_conforms _) fun r =>
    .seq reusableDestination_conforms fun d => emit_conforms (.product d l r)

theorem buildConstantProduct_conforms {c : Word} :
    Conforms (buildConstantProduct first c second result) :=
  .bind .get fun _ hq => .ite (fun hx => by simp [hq.isX64] at hx) fun _ => buildProduct_conforms

end Generating

theorem Word.exponent?_lt {w : Word} {k : Nat} (h : w.exponent? = some k) : k < 64 := by
  simp only [Word.exponent?, Option.ite_none_right_eq_some, Option.some.injEq] at h
  obtain ⟨⟨-, hk⟩, rfl⟩ := h
  have hlt : w.toInt.toNat < 2 ^ 64 := by
    have := w.toInt_lt
    omega
  rw [← hk, Nat.one_shiftLeft] at hlt
  exact (Nat.pow_lt_pow_iff_right (by decide)).mp hlt

namespace Generating

variable {first second result : ValueId}

theorem buildScaled_conforms {c : Word} : Conforms (buildScaled first c second result) := by
  unfold buildScaled
  split
  next k hk => exact buildShift_conforms (Word.exponent?_lt hk)
  next =>
    refine .bind .get fun q hq => ?_
    split
    next k hk =>
      refine ofArm64 hq (buildShiftedSum_conforms ?_)
      split at hk
      · exact Word.exponent?_lt hk
      · cases hk
    next => exact buildConstantProduct_conforms

theorem integerOf?_conforms : Conforms (integerOf? v) := by
  refine .seq handleOf_yields.preserves fun _ => ?_
  split <;> exact .pure trivial

theorem buildMultiplication_conforms : Conforms (buildMultiplication first second result) := by
  refine .seq formatOf_preserves fun _ => .ite (fun _ => buildDecimal_conforms .product) fun _ =>
    .seq integerOf?_conforms fun _ => .seq integerOf?_conforms fun _ => ?_
  split
  · exact buildScaled_conforms
  · exact buildScaled_conforms
  · exact buildProduct_conforms

theorem replaceLast_conforms {q : Routine} {i : Instruction} {n : Nat} {o : Operation}
    (hq : q.IsLoadStore) (hi : q.instructions[n]? = some i) (ho : o.IsLoadStore) :
    Conforms (modify fun s =>
      { s with
        instructions := s.instructions.setIfInBounds n
          { i with operations := i.operations.dropLast ++ [o] } }) := by
  refine .modify fun s hs => { hs with instructions := fun j hj => ?_ }
  rcases Array.mem_or_eq_of_mem_setIfInBounds hj with hj | rfl
  · exact hs.instructions j hj
  · intro o' ho'
    rcases List.mem_append.mp ho' with ho' | ho'
    · exact hq.instructions i (Array.mem_of_getElem? hi) o' (List.dropLast_subset _ ho')
    · exact List.mem_singleton.mp ho' ▸ ho

theorem redirect_conforms : Conforms (redirect v r w) := by
  refine .seq cellOf_preserves fun c => ?_
  split
  case h_2 => exact .pure trivial
  refine .seq Ensures.get.preserves fun _ => .ite (fun _ => .pure trivial) fun _ =>
    .seq isExpiring_preserves fun _ => .ite (fun _ => .pure trivial) fun _ =>
      .seq handleOf_yields.preserves fun _ => ?_
  split
  case h_2 => exact .pure trivial
  refine .seq owner?_conforms fun _ => .ite (fun _ => .pure trivial) fun _ =>
    .bind .get fun q hq => ?_
  split
  case h_2 => exact .pure trivial
  next i hi =>
    refine .ite (fun _ => .pure trivial) fun _ => .bind .get fun q' hq' => ?_
    split
    case h_2 => exact .pure trivial
    next o ho =>
      obtain ⟨o₀, hl, hr⟩ := Option.bind_eq_some_iff.mp ho
      have ho₀ := hq.instructions i (Array.mem_of_getElem? hi) o₀ (List.mem_of_getLast? hl)
      rw [hq'.isX64] at hr
      refine .seq (replaceLast_conforms hq hi (ho₀.retarget hr)) fun _ =>
        .seq registers_conform fun _ => .seq registers_conform fun _ =>
          .seq (setHandle_conforms trivial) fun _ => .ite (fun _ => ?_) fun _ => .pure trivial
      exact .seq (setHandle_conforms trivial) fun _ => .pure trivial

/-! ## Calls -/

theorem relocate_conforms : Conforms (relocate v r d) :=
  .seq (emit_conforms (.transfer d r)) fun _ => .seq registers_conform fun _ => place_conforms

theorem evacuateFrom_conforms : Conforms (evacuateFrom r v) := by
  refine .seq Ensures.get.preserves fun _ => .seq isValid_preserves fun _ =>
    .seq isVolatile_conforms fun _ => .seq handleOf_yields.preserves fun _ =>
      .ite (fun _ => ?_) fun _ => .pure trivial
  refine .seq formatOf_preserves fun _ => .seq .ask fun o => ?_
  split
  · exact relocate_conforms
  · exact spill_conforms

theorem buildEvacuate_conforms : Conforms buildEvacuate :=
  .seq Ensures.get.preserves fun _ => .forM fun _ _ => evacuateFrom_conforms

theorem releaseVolatile_conforms : Conforms releaseVolatile :=
  .seq Ensures.get.preserves fun _ => .forM fun _ _ => .seq isVolatile_conforms fun _ =>
    .ite (fun _ => registers_conform) fun _ => .pure trivial

theorem buildCall_conforms {symbol : String} {arguments : List ValueId} :
    Conforms (buildCall symbol arguments result) := by
  refine .seq Ensures.get.preserves fun _ =>
    .seq (Ensures.mapM fun _ _ => formatOf_preserves).preserves fun _ => ?_
  split
  · exact .refuse
  next registers _ =>
    have hm : ∀ m ∈ (registers.map Handle.register).zip arguments, m.1.IsPlain := by
      intro m hm
      obtain ⟨r, -, hr⟩ := List.mem_map.mp (List.of_mem_zip hm).1
      exact hr ▸ trivial
    exact .seq (parallelMove_conforms hm) fun _ =>
      .seq (emit_conforms (.named (.inl (by simp)) symbol)) fun _ =>
        .seq releaseVolatile_conforms fun _ => .seq formatOf_preserves fun _ => place_conforms

theorem buildReturn_conforms {value? : Option ValueId} : Conforms (buildReturn value?) := by
  have moved {r : Register} {f : Format} {v : ValueId} {redirected : Bool} :
      Conforms (if (!redirected) = true then do transferToRegister r (← handleOf v) f
        else Pure.pure PUnit.unit) :=
    .ite (fun _ => .bind handleOf_yields fun _ => transferToRegister_conforms) fun _ =>
      .pure trivial
  refine .seq (.optionForM fun v => ?_) fun _ => emit_conforms .ret
  exact .seq formatOf_preserves fun _ => .seq Ensures.get.preserves fun _ =>
    .seq isUsed_conforms fun _ => .ite (fun _ => .seq (.pure trivial) fun _ => moved) fun _ =>
      .seq redirect_conforms fun _ => moved

/-! ## Merging -/

theorem recordEntry_conforms {actives : List Binding} : Conforms (recordEntry p actives) := by
  refine .bind (.mapM (R := fun e => e.handle.IsPlain) fun x _ => .last handleOf_yields fun _ => id)
    fun entries he => .modify fun q hq => { hq with entries := ?_ }
  exact List.forall_mem_cons.mpr ⟨he, hq.entries⟩

theorem saveSnapshot_conforms : Conforms (saveSnapshot p) :=
  .modify fun _ hq => { hq with
    snapshots := List.forall_mem_cons.mpr ⟨hq.values.mem_handles, hq.snapshots⟩ }

theorem mem_of_lookup {β : Type} {xs : List (Nat × β)} {b : β} (h : xs.lookup p = some b) :
    (p, b) ∈ xs := by
  obtain ⟨before, after, rfl, -⟩ := List.lookup_eq_some_iff.mp h
  exact List.mem_append_right _ List.mem_cons_self

theorem restoreSnapshot_conforms : Conforms (restoreSnapshot p) :=
  .bind .get fun _ hq => .bind .required fun _ hs => .modify fun _ hq' => { hq' with
    values := hq'.values.restoreHandles (hq.snapshots _ (mem_of_lookup hs)) }

/-- Neither the destinations of moves nor the places of values are sums. -/
def ReturnPlan.IsPlain (p : ReturnPlan) : Prop :=
  (∀ m ∈ p.moves, m.1.IsPlain) ∧ ∀ x ∈ p.homes, x.2.IsPlain

theorem planReturn_yields {entries : List Entry} {survivingOnly : Bool} {pair : MergePair}
    (he : ∀ e ∈ entries, e.handle.IsPlain) :
    Yields (planReturn entries survivingOnly pair) ReturnPlan.IsPlain := by
  have nothing : Yields (Pure.pure ⟨[], []⟩) ReturnPlan.IsPlain := .pure ⟨by simp, by simp⟩
  refine .seq Ensures.get.preserves fun _ => .seq isValid_preserves fun _ => ?_
  split
  · exact nothing
  next h hh =>
    obtain ⟨e, hfound, rfl⟩ := Option.map_eq_some_iff.mp hh
    have hplain := he e (List.mem_of_find?_eq_some hfound)
    refine .ite (fun _ => nothing) fun _ => .ite (fun _ => nothing) fun _ => .ite (fun _ => ?_)
      fun _ => ?_
    · exact .seq (setHandle_conforms hplain) fun _ => nothing
    · refine .seq handleOf_yields.preserves fun _ => .pure ⟨?_, by simpa using hplain⟩
      split
      · simp
      · simpa using hplain

theorem settleAt_conforms (hh : h.IsPlain) : Conforms (settleAt v h) :=
  .seq (.optionForM fun _ => registers_conform) fun _ => setHandle_conforms hh

theorem reconcile_conforms {pairs : List MergePair} {survivingOnly : Bool} :
    Conforms (reconcile p pairs survivingOnly) := by
  refine .bind .get fun q hq => .bind .required fun entries he => ?_
  have he := hq.entries _ (mem_of_lookup he)
  refine .bind (.mapM fun pair _ => planReturn_yields he) fun plans hp => ?_
  have hmoves : ∀ m ∈ plans.flatMap ReturnPlan.moves, m.1.IsPlain := by
    intro m hm
    obtain ⟨plan, hplan, hm⟩ := List.mem_flatMap.mp hm
    exact (hp plan hplan).1 m hm
  refine .seq (parallelMove_conforms hmoves) fun _ => .forM fun x hx => ?_
  obtain ⟨plan, hplan, hx⟩ := List.mem_flatMap.mp hx
  exact settleAt_conforms ((hp plan hplan).2 x hx)

theorem cacheSlot_conforms {preserved : Bool} (hh : h.IsPlain) :
    Conforms (cacheSlot v h preserved) := by
  refine .seq formatOf_preserves fun _ =>
    .seq (.ite (fun _ => .ask) fun _ => .ask) fun _ => ?_
  split
  · exact .pure trivial
  · exact .seq (transferToRegister_conforms hh) fun _ => place_conforms

theorem preserve_conforms : Conforms (preserve v r) := by
  refine .seq isVolatile_conforms fun _ => .seq owner?_conforms fun _ =>
    .ite (fun _ => ?_) fun _ => .pure trivial
  refine .seq formatOf_preserves fun _ => .seq .ask fun _ => ?_
  split
  · exact relocate_conforms
  · exact .pure trivial

theorem buildCache_conforms {vars : List Binding} {preserved : Bool} :
    Conforms (buildCache vars preserved) := by
  refine .forM fun _ _ => .seq Ensures.get.preserves fun _ => .seq isValid_preserves fun _ =>
    .ite (fun _ => .bind handleOf_yields fun h hh => ?_) fun _ => .pure trivial
  split
  · exact .ite (fun _ => preserve_conforms) fun _ => .pure trivial
  · exact .ite (fun _ => cacheSlot_conforms hh) fun _ => .pure trivial

/-! ## Other instructions -/

theorem buildParameters_conforms {parameters : List ValueId} :
    Conforms (buildParameters parameters) := by
  refine .seq Ensures.get.preserves fun _ =>
    .seq (Ensures.mapM fun _ _ => formatOf_preserves).preserves fun _ => ?_
  split
  · exact .refuse
  · exact .forM fun _ _ => place_conforms

theorem buildCompare_conforms : Conforms (buildCompare first second) := by
  refine .bind .get fun q hq => ?_
  simp only [hq.isX64, Bool.false_and, Bool.false_eq_true, if_false]
  refine .seq formatOf_preserves fun _ => .seq formatOf_preserves fun _ =>
    .ite (fun _ => .seq loadAs_conforms fun l => ?_) fun _ => .seq (load_conforms _) fun l => ?_
  · exact .bind (.map (R := Operand.IsSmall) loadAs_conforms fun r _ => .register r) fun x hx =>
      emit_conforms (.comparison l hx)
  · exact .bind operand_yields fun x hx => emit_conforms (.comparison l hx)

theorem redirectOrMove_conforms {h : Handle} : Conforms (do
    let redirected ←
      match h.register? with
      | some r => if ← isUsed r then pure false else redirect second r first
      | none => pure false
    if !redirected then
      let f ← formatOf first
      if f.isDecimal && !(← formatOf second).isDecimal then
        let converted ← loadAs second f
        emit .move [.memory (← memoryOperand h), .register converted]
      else moveInto h second) := by
  have stored {redirected : Bool} : Conforms (do
      if !redirected then
        let f ← formatOf first
        if f.isDecimal && !(← formatOf second).isDecimal then
          let converted ← loadAs second f
          emit .move [.memory (← memoryOperand h), .register converted]
        else moveInto h second) := by
    refine .ite (fun _ => .seq formatOf_preserves fun _ => .seq formatOf_preserves fun _ =>
      .ite (fun _ => ?_) fun _ => moveInto_conforms) fun _ => .pure trivial
    exact .seq loadAs_conforms fun s => .bind memoryOperand_yields fun _ hm =>
      emit_conforms (.store s hm)
  split
  · exact .seq isUsed_conforms fun _ => .ite (fun _ => .seq (.pure trivial) fun _ => stored)
      fun _ => .seq redirect_conforms fun _ => stored
  · exact .seq (.pure trivial) fun _ => stored

theorem buildMove_conforms : Conforms (buildMove first second) :=
  .seq handleOf_yields.preserves fun _ =>
    .ite (fun _ => .seq .refuse fun _ => redirectOrMove_conforms) fun _ => redirectOrMove_conforms

theorem buildDuplicate_conforms : Conforms (buildDuplicate v result) :=
  .seq formatOf_preserves fun _ => .bind sourceAs_yields fun _ hh =>
    .seq allocateResult_conforms fun _ => transferToRegister_conforms hh

theorem buildRead_conforms : Conforms (buildRead v) := by
  refine .seq handleOf_yields.preserves fun _ => ?_
  split
  · exact .seq isUsed_conforms fun _ => .ite (fun _ => registers_conform) fun _ => .pure trivial
  · exact .pure trivial

theorem buildJump_conforms {l : Label} {test : Option JumpTest} : Conforms (buildJump l test) := by
  refine .seq Ensures.get.preserves fun q => emit_conforms (.named ?_ _)
  cases test with
  | none => exact .inl (by simp)
  | some t => exact .inr ⟨_, _, rfl⟩

theorem releaseExpired_conforms : Conforms releaseExpired :=
  .seq Ensures.get.preserves fun _ => .forM fun _ _ => .seq handleOf_yields.preserves fun _ =>
    .seq Ensures.get.preserves fun _ => .seq isValid_preserves fun _ =>
      .ite (fun _ => registers_conform) fun _ => .pure trivial

/-! ## Instructions -/

theorem buildInstruction_conforms {k : InstructionKind} :
    Conforms (buildInstruction p result k) := by
  cases k with
  | bindParameters => exact buildParameters_conforms
  | label l =>
    exact .seq Ensures.get.preserves fun _ => emit_conforms (.named (.inl (by simp)) _)
  | jump => exact buildJump_conforms
  | compare => exact buildCompare_conforms
  | move => exact buildMove_conforms
  | duplicate => exact buildDuplicate_conforms
  | addition => exact buildAdditive_conforms (.inl rfl)
  | subtraction => exact buildAdditive_conforms (.inr rfl)
  | multiplication => exact buildMultiplication_conforms
  | getMemoryAddress | getObjectPointer | allocateStack | branch => exact .pure trivial
  | call => exact buildCall_conforms
  | ret => exact buildReturn_conforms
  | evacuate => exact buildEvacuate_conforms
  | saveState => exact saveSnapshot_conforms
  | restoreState => exact restoreSnapshot_conforms
  | enterScope => exact recordEntry_conforms
  | mergeScope => exact reconcile_conforms
  | symmetryStart => exact .seq recordEntry_conforms fun _ => saveSnapshot_conforms
  | symmetryEnd => exact .seq reconcile_conforms fun _ => restoreSnapshot_conforms
  | getVariable => exact buildRead_conforms
  | cacheVariables => exact buildCache_conforms

theorem buildAt_conforms {i : Instruction} : Conforms (buildAt p i) := by
  refine .seq (.modify fun _ hq => { hq with }) fun _ => .seq releaseExpired_conforms fun _ =>
    .seq buildInstruction_conforms fun _ => .modify fun q hq => ?_
  refine { hq with instructions := fun j hj => ?_, operations := by simp }
  obtain ⟨n, hn⟩ := Array.mem_iff_getElem?.mp hj
  rw [Array.getElem?_modify] at hn
  split at hn
  · obtain ⟨j', -, rfl⟩ := Option.map_eq_some_iff.mp hn
    exact hq.operations
  · exact hq.instructions j (Array.mem_of_getElem? hn)

/-- **The build of a function emits operations in load and store form.** -/
theorem build_conforms : Conforms build := by
  refine .bind .get fun q hq => .ite (fun _ => .seq .refuse fun _ => ?_) fun _ => ?_
  all_goals exact .seq (.set { hq with }) fun _ => .forM fun _ _ => buildAt_conforms

end Generating

end Codegen
