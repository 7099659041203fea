import Mathlib
import Codegen.Proofs.Compilation
import Codegen.Proofs.LoadStore.Selection
import Codegen.Proofs.Lowering.Preserved

/-!
# Output in load and store form

Lowering places no value in a sum, the selection emits operations of the grammar, and the code
around the body has only such operations as well. A slot becomes an address from the stack pointer,
which loads and stores reach.

* `Routine.IsLoadStore.lowering`: lowering keeps the invariant of the selection;
* `Frame.isLoadStore_of_mem_prologue`, `isLoadStore_locate`: the frame;
* `function_obeysLoadStore`: **every operation of the output obeys the rules of the architecture**.
-/

namespace Codegen

open Generating

/-! ## Lowering -/

theorem Handle.IsInitial.isPlain {h : Handle} (hh : h.IsInitial) : h.IsPlain := by
  cases h <;> first | exact hh.elim | trivial

theorem Routine.IsLoadStore.lowering : LoweringInvariant Routine.IsLoadStore :=
  have values : ValueInvariant Routine.IsLoadStore :=
    { create := fun hr hh => { hr with values := hr.values.create hh.isPlain }
      setMetadata := fun hr hv => { hr with values := hr.values.setMetadata hv }
      setInstruction := fun hr hv => { hr with values := hr.values.setInstruction hv }
      useAt := fun hr hv => { hr with values := hr.values.useAt hv }
      join := fun hr hv => { hr with values := hr.values.join hv } }
  have push {k : InstructionKind} (r : Routine) (x : ValueId) (hr : r.IsLoadStore) :
      { r with instructions := r.instructions.push ⟨k, x, k.parameters, []⟩ }.IsLoadStore :=
    { hr with
      instructions := fun i hi => by
        rcases Array.mem_push.mp hi with hi | rfl
        · exact hr.instructions i hi
        · simp }
  { values with
    push := fun _ x _ hr => push _ x hr
    array := fun _ => .seq (.modifyGet fun _ hr => { hr with }) fun _ =>
      values.append_preserves push
    context := fun _ _ _ _ _ hr => { hr with } }

theorem Routine.isLoadStore_start {tree : Tree} {symbols : SymbolTable} {function : FunctionId}
    {config : Config} {r : Routine} (ha : config.architecture = .arm64)
    (h : Routine.start tree symbols function config = .ok r) : r.IsLoadStore := by
  rw [Routine.start, Arena.bind_eq_ok] at h
  obtain ⟨symbol, -, h⟩ := h
  cases h
  exact ⟨ha, .empty, by simp, by simp, by simp, by simp⟩

/-! ## The frame -/

namespace Frame

variable {f : Frame} {config : Config} {sp : Register} {o : Operation} {os : List Operand}

theorem isLoadStore_of_mem_adjustStack {c : Opcode} {bytes : Nat} (hc : c = .add ∨ c = .subtract)
    (h : o ∈ adjustStack .arm64 c bytes) : o.IsLoadStore := by
  have hscratch : (Architecture.arm64.target).scratch? = some (.general 16) := rfl
  simp only [adjustStack, hscratch] at h
  split at h
  · simp at h
  split at h
  next hlt =>
    obtain rfl := List.mem_singleton.mp h
    refine .sum hc _ _ (.immediate ?_)
    rw [Int64.toInt_ofNat_of_lt (by omega)]
    omega
  next =>
    simp only [List.mem_cons, List.not_mem_nil, or_false] at h
    rcases h with rfl | rfl
    · exact .word _ _
    · exact .sum hc _ _ (.register _)

theorem isLoadStore_of_mem_prologue (ha : config.architecture = .arm64)
    (h : o ∈ f.prologue config) : o.IsLoadStore := by
  simp only [prologue, ha, List.mem_append, List.mem_cons, List.mem_map, List.not_mem_nil,
    or_false] at h
  rcases h with ((rfl | rfl) | ⟨rs, -, rfl⟩) | h
  · exact .pair (.inl rfl) _
  · exact .transfer _ _
  · exact .pair (.inl rfl) rs
  · exact isLoadStore_of_mem_adjustStack (.inr rfl) h

theorem isLoadStore_of_mem_epilogue (ha : config.architecture = .arm64)
    (h : o ∈ f.epilogue config) : o.IsLoadStore := by
  simp only [epilogue, ha, List.mem_append, List.mem_cons, List.mem_map, List.not_mem_nil,
    or_false] at h
  rcases h with (h | ⟨rs, -, rfl⟩ | rfl) | rfl
  · exact isLoadStore_of_mem_adjustStack (.inl rfl) h
  · exact .pair (.inr rfl) rs
  · exact .pair (.inr rfl) _
  · exact .ret

theorem locate_eq_self (h : ∀ m, .memory m ∉ os) : os.mapM (f.locate sp) = .ok os := by
  induction os with
  | nil => rfl
  | cons x os ih =>
    have hx : f.locate sp x = .ok x := by
      cases x with
      | memory m => exact absurd List.mem_cons_self (h m)
      | _ => rfl
    rw [List.mapM_cons, hx, ih fun m hm => h m (List.mem_cons_of_mem _ hm)]
    rfl

theorem locateMemory_displaced {b : Base} {d : Word} {m : MemoryOperand}
    (hb : ∀ i, b = .constant i → d = 0)
    (h : f.locateMemory sp (.displaced b d) = .ok m) :
    ∃ b' d', m = .displaced b' d' ∧ ∀ i, b' = .constant i → d' = 0 := by
  simp only [locateMemory, MemoryOperand.displaced] at h
  split at h
  · split at h
    · cases h
    · obtain ⟨d', -, h⟩ := Arena.bind_eq_ok.mp h
      cases h
      exact ⟨_, d', rfl, by simp⟩
  · cases h
    exact ⟨b, d, rfl, hb⟩

theorem locateMemory_isLoadable {m m' : MemoryOperand} (hm : m.IsLoadable)
    (h : f.locateMemory sp m = .ok m') : m'.IsLoadable := by
  cases hm with
  | displaced hb =>
    obtain ⟨b', d', rfl, hb'⟩ := locateMemory_displaced hb h
    exact .displaced hb'
  | indexed hs =>
    cases h
    exact .indexed hs

theorem isLoadStore_locate (ho : o.IsLoadStore) (h : o.operands.mapM (f.locate sp) = .ok os) :
    Operation.IsLoadStore ⟨o.opcode, os⟩ := by
  -- only loads, stores and address computations have an operand that changes
  have same (hm : ∀ m, .memory m ∉ o.operands) : Operation.IsLoadStore ⟨o.opcode, os⟩ := by
    rw [locate_eq_self hm] at h
    cases h
    exact ho
  cases ho with
  | load d hm =>
    simp only [List.mapM_cons, List.mapM_nil, locate, Arena.bind_eq_ok, Arena.pure_eq_ok] at h
    obtain ⟨_, ⟨⟩, _, ⟨_, ⟨m', hm', rfl⟩, _, rfl, rfl⟩, rfl⟩ := h
    exact .load d (locateMemory_isLoadable hm hm')
  | store r hm =>
    simp only [List.mapM_cons, List.mapM_nil, locate, Arena.bind_eq_ok, Arena.pure_eq_ok] at h
    obtain ⟨_, ⟨m', hm', rfl⟩, _, ⟨_, ⟨⟩, _, rfl, rfl⟩, rfl⟩ := h
    exact .store r (locateMemory_isLoadable hm hm')
  | address d hb =>
    simp only [List.mapM_cons, List.mapM_nil, locate, Arena.bind_eq_ok, Arena.pure_eq_ok] at h
    obtain ⟨_, ⟨⟩, _, ⟨_, ⟨m', hm', rfl⟩, _, rfl, rfl⟩, rfl⟩ := h
    obtain ⟨b', d', rfl, hb'⟩ := locateMemory_displaced hb hm'
    exact .address d hb'
  | sum _ _ _ hx | comparison _ hx => exact same fun m => by cases hx <;> simp
  | pair _ rs => exact same fun m => by simp [onRegisters]
  | _ => exact same fun m => by simp

end Frame

/-! ## The output -/

variable {config : Config} {binary : Bool} {symbols : SymbolTable} {s : Source} {o : Output}
variable {session session' : Session}

theorem Compiled.isLoadStore (w : Compiled config symbols s o) (ha : config.architecture = .arm64) :
    ∀ op ∈ o.operations, op.IsLoadStore := by
  have hstart := Routine.isLoadStore_start ha w.started
  have hlowered := (Routine.IsLoadStore.lowering.lowerFunction_preserves _ _ _ hstart w.lowers).1
  have hbuilt := (build_conforms _ _ _ hlowered w.builds).1
  refine Frame.forall_complete (fun _ => Frame.isLoadStore_of_mem_prologue hbuilt.architecture)
    (fun _ => Frame.isLoadStore_of_mem_epilogue hbuilt.architecture) (fun op hop _ _ hos => ?_)
    w.completes
  obtain ⟨i, hi, hop⟩ := List.mem_flatMap.mp hop
  exact Frame.isLoadStore_locate (hbuilt.instructions i (Array.mem_def.mpr hi) op hop) hos

/-- **Every operation of the output obeys the rules of the architecture**, and the text of each
address has all of it. -/
theorem function_obeysLoadStore (ha : config.architecture = .arm64)
    (h : Compiling.function config binary symbols s session = .ok o session') :
    ∀ op ∈ o.operations, op.ObeysLoadStore ∧
      ∀ m, .memory m ∈ op.operands → m.arm64Text = m.wholeText := by
  intro op hop
  obtain ⟨w⟩ := Compiling.exists_compiled h
  have hop := w.isLoadStore ha op hop
  exact ⟨hop.obeys, fun m hm => (hop.isLoadable hm).arm64Text_eq⟩

open Surface in
/-- A function that adds a small constant to an element of memory. -/
def picking : ProgramForm where
  globals := []
  types := []
  functions := [{
    name := "pick"
    key := "pick"
    inside? := none
    parameters := [⟨"p", some "i64"⟩, ⟨"i", some "i64"⟩]
    returnType? := some "i64"
    body? := some [
      .retValue (.operator .add (.offset (.reference "p") (.reference "i"))
        (.number (.integer 5) .i64))] }]

theorem picking_compiling : ((picking.compiling? ⟨.arm64, false, false⟩).any fun o =>
    o.operations.map (·.opcode) == [.savePair, .move, .move, .add, .restorePair, .ret]) = true := by
  cbv

/-- So the load of the element and the sum obey the rules. -/
theorem function_obeysLoadStore_picking : ∃ symbols s o session,
    Compiling.function ⟨.arm64, false, false⟩ false symbols s Session.empty = .ok o session ∧
      o.operations.map (·.opcode) = [.savePair, .move, .move, .add, .restorePair, .ret] ∧
      ∀ op ∈ o.operations, op.ObeysLoadStore ∧
        ∀ m, .memory m ∈ op.operands → m.arm64Text = m.wholeText := by
  obtain ⟨o, ho, hops⟩ := (Option.any_eq_true _ _).mp picking_compiling
  obtain ⟨symbols, s, session, h⟩ := Surface.ProgramForm.exists_function ho
  exact ⟨symbols, s, o, session, h, beq_iff_eq.mp hops, function_obeysLoadStore rfl h⟩

end Codegen
