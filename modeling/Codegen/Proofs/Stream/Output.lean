import Codegen.Compilation
import Codegen.Proofs.Stream.Build
import Mathlib

/-!
# The output of a closed stream

The labels and jumps of the output are those of the stream, since the code around the body of a
function has none. So each jump of the output has exactly one target.

* `body_control`: the labels and jumps of a body that was built;
* `complete_control`: the code around a body adds none;
* `output_targets`: **each jump has exactly one target**;
* `Lowered.stream_closed`: **the stream of a function is closed, and its jumps stay so**.
-/

namespace Codegen

variable {ks : List InstructionKind} {symbol : String} {r : Routine}

/-! ## Labels and jumps -/

theorem body_control (h : Building symbol ks ks.length r.skeleton) :
    r.body.filter (·.isControl) = ks.flatMap (controlOf symbol) := by
  have hcontrol : r.instructions.toList.map (fun i => i.operations.filter (·.isControl)) =
      ks.map (controlOf symbol) := by
    refine List.ext_getElem? fun i => ?_
    rw [List.getElem?_map (l := ks)]
    cases hk : ks[i]? with
    | some k => exact h.control i k (List.getElem?_eq_some_iff.mp hk).1 hk
    | none =>
      refine List.getElem?_eq_none ?_
      have := h.length
      rw [Routine.skeleton] at this
      rw [this]
      exact List.getElem?_eq_none_iff.mp hk
  rw [Routine.body, List.filter_flatMap, List.flatMap_def, hcontrol, List.flatMap_def]

theorem operands_of_mem_controlOf {k : InstructionKind} {o : Operation}
    (h : o ∈ controlOf symbol k) : ∃ l, o.operands = [.label (labelText symbol l)] := by
  unfold controlOf at h
  split at h <;> simp_all

namespace Frame

variable {f : Frame} {config : Config}

theorem not_isControl_of_mem_adjustStack {a : Architecture} {opcode : Opcode} {bytes : Nat}
    (hc : opcode.isControl = false) {o : Operation} (h : o ∈ adjustStack a opcode bytes) :
    o.isControl = false := by
  unfold adjustStack at h
  dsimp only at h
  split at h
  · simp at h
  split at h
  · split at h
    · simp_all [Operation.isControl]
    · simp only [List.mem_cons, List.not_mem_nil, or_false] at h
      rcases h with rfl | rfl
      · rfl
      · exact hc
  · simp_all [Operation.isControl]

theorem not_isControl_of_mem_prologue {o : Operation} (h : o ∈ f.prologue config) :
    o.isControl = false := by
  rcases List.mem_append.mp h with h | h
  · split at h
    · rcases List.mem_append.mp h with h | h
      · split at h
        · simp only [List.mem_cons, List.not_mem_nil, or_false] at h
          rcases h with rfl | rfl <;> rfl
        · simp at h
      · obtain ⟨r, -, rfl⟩ := List.mem_map.mp h
        rfl
    · rcases List.mem_append.mp h with h | h
      · simp only [List.mem_cons, List.not_mem_nil, or_false] at h
        rcases h with rfl | rfl <;> rfl
      · obtain ⟨rs, -, rfl⟩ := List.mem_map.mp h
        rfl
  · exact not_isControl_of_mem_adjustStack rfl h

theorem not_isControl_of_mem_epilogue {o : Operation} (h : o ∈ f.epilogue config) :
    o.isControl = false := by
  rcases List.mem_append.mp h with h | h
  · rcases List.mem_append.mp h with h | h
    · exact not_isControl_of_mem_adjustStack rfl h
    · split at h
      · rcases List.mem_append.mp h with h | h
        · obtain ⟨r, -, rfl⟩ := List.mem_map.mp h
          rfl
        · split at h
          · obtain rfl := List.mem_singleton.mp h
            rfl
          · simp at h
      · rcases List.mem_append.mp h with h | h
        · obtain ⟨rs, -, rfl⟩ := List.mem_map.mp h
          rfl
        · obtain rfl := List.mem_singleton.mp h
          rfl
  · obtain rfl := List.mem_singleton.mp h
    rfl

theorem enclose_control {o : Operation} {os : List Operation}
    (ho : o.isControl = true → ∃ name, o.operands = [.label name])
    (h : f.enclose config o = .ok os) : os.filter (·.isControl) = [o].filter (·.isControl) := by
  unfold enclose at h
  split at h
  next hret =>
    cases h
    have hc : o.isControl = false := by simp [Operation.isControl, hret, Opcode.isControl]
    rw [List.filter_eq_nil_iff.mpr (by simpa using fun o' => not_isControl_of_mem_epilogue)]
    simp [hc]
  next =>
    rw [Arena.bind_eq_ok] at h
    obtain ⟨operands, hoperands, h⟩ := h
    cases h
    cases hc : o.isControl with
    | false =>
      have hc' : (⟨o.opcode, operands⟩ : Operation).isControl = false := hc
      simp [hc, hc']
    | true =>
      obtain ⟨name, hname⟩ := ho hc
      rw [hname] at hoperands
      obtain rfl : [.label name] = operands := by
        simpa [List.mapM_cons, Frame.locate, Arena.pure_eq_ok, Arena.bind_eq_ok] using hoperands
      rw [← hname]

theorem complete_control {body os : List Operation}
    (hb : ∀ o ∈ body, o.isControl = true → ∃ name, o.operands = [.label name])
    (h : f.complete config body = .ok os) :
    os.filter (·.isControl) = body.filter (·.isControl) := by
  have enclosed {body : List Operation} {oss : List (List Operation)}
      (hb : ∀ o ∈ body, o.isControl = true → ∃ name, o.operands = [.label name])
      (h : body.mapM (f.enclose config) = .ok oss) :
      oss.flatten.filter (·.isControl) = body.filter (·.isControl) := by
    induction body generalizing oss with
    | nil =>
      cases h
      rfl
    | cons o body ih =>
      simp only [List.mapM_cons, Arena.bind_eq_ok, Arena.pure_eq_ok] at h
      obtain ⟨os, ho, oss, hoss, rfl⟩ := h
      rw [List.flatten_cons, List.filter_append, enclose_control (hb o List.mem_cons_self) ho,
        ih (fun o ho => hb o (List.mem_cons_of_mem _ ho)) hoss, ← List.filter_append]
      rfl
  simp only [complete, Arena.bind_eq_ok, Arena.pure_eq_ok] at h
  obtain ⟨oss, hoss, rfl⟩ := h
  rw [List.filter_append,
    List.filter_eq_nil_iff.mpr (by simpa using fun o => not_isControl_of_mem_prologue),
    List.nil_append, enclosed hb hoss]

end Frame

/-! ## Targets -/

theorem labelText_inj {l m : Label} : labelText symbol l = labelText symbol m ↔ l = m := by
  change symbol ++ ("_L" ++ Nat.repr l) = symbol ++ ("_L" ++ Nat.repr m) ↔ l = m
  rw [String.append_right_inj, String.append_right_inj, Nat.repr_inj]

theorem count_label_operation (ks : List InstructionKind) (l : Label) :
    (ks.flatMap (controlOf symbol)).count ⟨.label, [.label (labelText symbol l)]⟩ =
      ks.count (.label l) := by
  induction ks with
  | nil => rfl
  | cons k ks ih =>
    rw [List.flatMap_cons, List.count_append, ih, List.count_cons, Nat.add_comm]
    congr 1
    cases k with
    | label m => simp [controlOf, List.count_cons, labelText_inj]
    | jump m test => cases test <;> simp [controlOf]
    | _ => simp [controlOf]

theorem output_control {binary : Bool} {o : Output} (h : Building symbol ks ks.length r.skeleton)
    (ho : r.output binary = .ok o) :
    o.operations.filter (·.isControl) = ks.flatMap (controlOf symbol) := by
  have hbody := body_control h
  have hnamed (b : Operation) (hb : b ∈ r.body) (hc : b.isControl = true) :
      ∃ name, b.operands = [.label name] := by
    have hmem : b ∈ r.body.filter (·.isControl) := List.mem_filter.mpr ⟨hb, hc⟩
    rw [hbody] at hmem
    obtain ⟨k, -, hk⟩ := List.mem_flatMap.mp hmem
    obtain ⟨l, hl⟩ := operands_of_mem_controlOf hk
    exact ⟨_, hl⟩
  rw [Routine.output, Arena.bind_eq_ok] at ho
  obtain ⟨frame, -, ho⟩ := ho
  rw [Arena.bind_eq_ok] at ho
  obtain ⟨operations, hoperations, ho⟩ := ho
  rw [← hbody, ← Frame.complete_control hnamed hoperations]
  dsimp only at ho
  split at ho
  all_goals
    obtain ⟨bytes?, -, ho⟩ := Arena.bind_eq_ok.mp ho
    cases ho
    rfl

/-- **Each jump of the output has exactly one target.** -/
theorem output_targets {binary : Bool} {o : Output} (hc : Closed ks)
    (h : Building symbol ks ks.length r.skeleton) (ho : r.output binary = .ok o)
    {j : Operation} (hj : j ∈ o.operations)
    (hjump : j.opcode = .jump ∨ ∃ c s, j.opcode = .conditionalJump c s) :
    ∃ name, j.operands = [.label name] ∧ o.operations.count ⟨.label, [.label name]⟩ = 1 := by
  have hcontrol := output_control h ho
  have hj' : j ∈ ks.flatMap (controlOf symbol) := by
    rw [← hcontrol, List.mem_filter]
    refine ⟨hj, ?_⟩
    rcases hjump with hjump | ⟨c, s, hjump⟩ <;> simp [Operation.isControl, hjump, Opcode.isControl]
  obtain ⟨k, hk, hjk⟩ := List.mem_flatMap.mp hj'
  obtain ⟨l, test, rfl⟩ : ∃ l test, k = .jump l test := by
    cases k <;> simp_all [controlOf]
  obtain ⟨l', hl'⟩ := operands_of_mem_controlOf hjk
  refine ⟨labelText symbol l, ?_, ?_⟩
  · cases test <;> simp_all [controlOf]
  · have hlabel : (⟨.label, [.label (labelText symbol l)]⟩ : Operation).isControl = true := rfl
    rw [← List.count_filter hlabel, hcontrol, count_label_operation]
    exact hc.jumps l test hk

open Generating in
/-- **The stream of a function is closed, and its jumps stay so.** All regions are left; the build
asks for no record that was not made; and in the output each jump has exactly one target. -/
theorem Lowered.stream_closed (w : Lowered) :
    Closed w.routine.kinds ∧ w.routine.regions = [] ∧
      (∀ e r, build w.routine = .error e r →
        (∀ save, e ≠ .report (.inconsistent (.noSavedState save))) ∧
          ∀ entry, e ≠ .report (.inconsistent (.noEntry entry))) ∧
      ∀ r binary o, build w.routine = .ok () r → r.output binary = .ok o →
        ∀ j ∈ o.operations, (j.opcode = .jump ∨ ∃ c s, j.opcode = .conditionalJump c s) →
          ∃ name, j.operands = [.label name] ∧
            o.operations.count ⟨.label, [.label name]⟩ = 1 := by
  have hopen := w.stream_open
  have hclosed := Closed.of_open hopen
  have hbuild := build_attains hclosed hopen.unbuilt
  unfold Attains at hbuild
  refine ⟨hclosed, hopen.regions, fun e r he => ?_, fun r binary o hr ho j hj hjump => ?_⟩
  · rw [he] at hbuild
    constructor
    all_goals
      rintro x rfl
      cases hbuild
  · rw [hr] at hbuild
    exact output_targets hclosed hbuild ho hj hjump

open Surface in
/-- An endless loop with a way out. -/
def waiting : ProgramForm where
  globals := []
  types := []
  functions := [{
    name := "wait"
    key := "wait"
    inside? := none
    parameters := [⟨"p", some "i64"⟩]
    returnType? := none
    body? := some [
      .forever [
        .ifBranch (.operator .less (.reference "p") (.number (.integer 0) .i64))
          [.control .stop] []],
      .ret] }]

/-- The output of a lowered function. -/
def Routine.built? (r : Routine) : Option Output :=
  match Generating.build r with
  | .error .. => none
  | .ok () r => (r.output false).toOption

theorem waiting_jumps : ((waiting.lowering? ⟨.x64, false, false⟩).any fun (_, r) =>
    r.targets.length == 3 && r.built?.any fun o => o.operations.any (·.opcode == .jump)) = true := by
  decide +kernel

/-- So each of the jumps has its target. -/
theorem stream_closed_waiting : ∃ (w : Lowered) (r : Routine) (o : Output),
    Generating.build w.routine = .ok () r ∧ r.output false = .ok o ∧ w.routine.targets.length = 3 ∧
      Closed w.routine.kinds ∧ ∃ j ∈ o.operations, j.opcode = .jump ∧ ∃ name,
        j.operands = [.label name] ∧ o.operations.count ⟨.label, [.label name]⟩ = 1 := by
  obtain ⟨⟨s, r₀⟩, hlow, hw⟩ := (Option.any_eq_true _ _).mp waiting_jumps
  obtain ⟨w, -, rfl⟩ := Surface.ProgramForm.exists_lowered hlow
  rw [Bool.and_eq_true, beq_iff_eq] at hw
  obtain ⟨hcount, ho⟩ := hw
  obtain ⟨o, hbuilt, hjump⟩ := (Option.any_eq_true _ _).mp ho
  obtain ⟨j, hj, hop⟩ := List.any_eq_true.mp hjump
  have hop : j.opcode = .jump := beq_iff_eq.mp hop
  unfold Routine.built? at hbuilt
  split at hbuilt
  next => cases hbuilt
  next r hr =>
    have ho : r.output false = .ok o := by
      cases h : r.output false <;> simp_all [Except.toOption]
    obtain ⟨hclosed, -, -, htargets⟩ := w.stream_closed
    exact ⟨w, r, o, hr, ho, hcount, hclosed, j, hj, hop, htargets r false o hr ho j hj (.inl hop)⟩

end Codegen
