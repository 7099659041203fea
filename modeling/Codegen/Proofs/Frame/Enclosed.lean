import Codegen.Proofs.Frame.Around

/-!
# Bodies inside frames

The operations of a body become operations of the function one by one: slots get their places, and
a return becomes an epilogue. As nothing around the body defines a label, a jump always goes to an
operation of the body.

* `Frame.Encloses`: **a body, and what it becomes in the function**;
* `Frame.exists_of_enclose`: one operation;
* `Frame.opcode_of_mem_prologue`, `opcode_of_mem_epilogue`: what is around the body;
* `Frame.exists_of_label`: **where jumps go**.
-/

namespace Codegen.Frame

open ByteMachine

variable {f : Frame} {config : Config} {body : List Operation}

/-! ## Operations inside the frame -/

/-- The operations that a list of operations becomes inside the frame. -/
def Encloses (f : Frame) (config : Config) (body os : List Operation) : Prop :=
  ∃ oss, body.mapM (f.enclose config) = .ok oss ∧ os = oss.flatten

theorem encloses_cons {o : Operation} {os : List Operation} :
    f.Encloses config (o :: body) os ↔
      ∃ first rest, f.enclose config o = .ok first ∧ f.Encloses config body rest ∧
        os = first ++ rest := by
  simp only [Encloses, List.mapM_cons, Arena.bind_eq_ok, Arena.pure_eq_ok]
  constructor
  · rintro ⟨_, ⟨first, ho, rest, hrest, rfl⟩, rfl⟩
    exact ⟨first, rest.flatten, ho, ⟨rest, hrest, rfl⟩, rfl⟩
  · rintro ⟨first, _, ho, ⟨rest, hrest, rfl⟩, rfl⟩
    exact ⟨_, ⟨first, ho, rest, hrest, rfl⟩, rfl⟩

theorem enclose_ret {o : Operation} {os : List Operation} (h : o.opcode = .ret) :
    f.enclose config o = .ok os ↔ os = f.epilogue config := by
  rw [enclose, if_pos h, Except.ok.injEq, eq_comm]

theorem register_mem_of_locate {sp : Register} {xs ys : List Operand}
    (h : xs.mapM (f.locate sp) = .ok ys) (hr : .register r ∈ ys) : .register r ∈ xs := by
  induction xs generalizing ys with
  | nil =>
    cases h
    exact hr
  | cons x xs ih =>
    simp only [List.mapM_cons, Arena.bind_eq_ok, Arena.pure_eq_ok] at h
    obtain ⟨y, hy, ys, hys, rfl⟩ := h
    rcases List.mem_cons.mp hr with rfl | hr
    · refine List.mem_cons.mpr (.inl ?_)
      cases x with
      | memory m =>
        simp only [locate, Arena.bind_eq_ok, Arena.pure_eq_ok] at hy
        obtain ⟨_, -, hy⟩ := hy
        cases hy
      | _ =>
        cases hy
        try rfl
    · exact List.mem_cons_of_mem _ (ih hys hr)

theorem exists_of_enclose {o : Operation} {os : List Operation} (hne : o.opcode ≠ .ret)
    (h : f.enclose config o = .ok os) :
    ∃ p : Operation, os = [p] ∧ p.opcode = o.opcode ∧
      ∀ r, .register r ∈ p.operands → .register r ∈ o.operands := by
  simp only [enclose, if_neg hne, Arena.bind_eq_ok, Arena.pure_eq_ok] at h
  obtain ⟨operands, hoperands, rfl⟩ := h
  exact ⟨_, rfl, rfl, fun r hr => register_mem_of_locate hoperands hr⟩

/-! ## Places in the function -/

theorem opcode_of_mem_adjustStack {a : Architecture} {c : Opcode} {bytes : Nat} {o : Operation}
    (h : o ∈ adjustStack a c bytes) : o.opcode = c ∨ o.opcode = .move := by
  unfold adjustStack at h
  grind

theorem opcode_of_mem_prologue {o : Operation} (h : o ∈ f.prologue config) :
    o.opcode ∈ [.push, .savePair, .move, .subtract] := by
  have hsaving : config.architecture.saving ∈ [Opcode.push, .savePair] := by
    cases config.architecture <;> decide
  rw [prologue_eq, List.mem_append, List.mem_append, List.mem_flatMap, List.mem_map] at h
  rcases h with (⟨rs, -, h⟩ | ⟨rs, -, rfl⟩) | h
  · rcases List.mem_pair.mp h with rfl | rfl
    · simp only [onRegisters, List.mem_cons] at hsaving ⊢
      tauto
    · simp [onRegisters]
  · simp only [onRegisters, List.mem_cons] at hsaving ⊢
    tauto
  · rcases opcode_of_mem_adjustStack h with h | h <;> simp [h]

theorem opcode_of_mem_restoring {o : Operation}
    (h : o ∈ adjustStack config.architecture .add f.size ++
      (f.stacked config).map (onRegisters config.architecture.restoring)) :
    o.opcode ∈ [.move, .add, .pop, .restorePair] := by
  rw [List.mem_append, List.mem_map] at h
  rcases h with h | ⟨rs, -, rfl⟩
  · rcases opcode_of_mem_adjustStack h with h | h <;> simp [h]
  · show config.architecture.restoring ∈ _
    cases config.architecture <;> decide

theorem opcode_of_mem_epilogue {o : Operation} (h : o ∈ f.epilogue config) :
    o.opcode ∈ [.move, .add, .pop, .restorePair, .ret] := by
  rw [epilogue_eq, List.mem_append, List.mem_singleton] at h
  rcases h with h | rfl
  · have := opcode_of_mem_restoring h
    simp only [List.mem_cons] at this ⊢
    tauto
  · simp

theorem append_eq_append_cons {α : Type} {xs ys before after : List α} {x : α}
    (h : xs ++ ys = before ++ x :: after) (hx : x ∉ xs) :
    ∃ before', ys = before' ++ x :: after := by
  rcases List.append_eq_append_iff.mp h with ⟨zs, rfl, hys⟩ | ⟨zs, rfl, hys⟩
  · exact ⟨zs, hys⟩
  · cases zs with
    | nil => exact ⟨[], hys.symm⟩
    | cons z zs =>
      obtain ⟨rfl, -⟩ := List.cons.inj hys
      exact absurd (by simp) hx

/-- **A label of the function is one of its body**, and what follows is the rest of the body. -/
theorem exists_of_label {os before after : List Operation} {l : Operation}
    (hl : l.opcode = .label) (h : f.Encloses config body os) (hos : os = before ++ l :: after) :
    ∃ pre o post, body = pre ++ o :: post ∧ o.opcode = .label ∧
      f.Encloses config (o :: post) (l :: after) := by
  induction body generalizing os before with
  | nil =>
    obtain ⟨oss, h, rfl⟩ := h
    cases h
    simp at hos
  | cons o body ih =>
    have henclosed := h
    obtain ⟨first, rest, ho, hrest, rfl⟩ := encloses_cons.mp h
    have later {before' : List Operation} (hos : rest = before' ++ l :: after) :
        ∃ pre p post, o :: body = pre ++ p :: post ∧ p.opcode = .label ∧
          f.Encloses config (p :: post) (l :: after) := by
      obtain ⟨pre, p, post, rfl, hp⟩ := ih hrest hos
      exact ⟨o :: pre, p, post, rfl, hp⟩
    by_cases hret : o.opcode = .ret
    · obtain rfl := (enclose_ret hret).mp ho
      obtain ⟨before', hos⟩ := append_eq_append_cons hos fun hmem => by
        simpa [hl] using opcode_of_mem_epilogue hmem
      exact later hos
    · obtain ⟨p, rfl, hcode, -⟩ := exists_of_enclose hret ho
      cases before with
      | nil =>
        obtain ⟨rfl, rfl⟩ := List.cons.inj hos
        exact ⟨[], o, body, rfl, hcode ▸ hl, henclosed⟩
      | cons q before => exact later (List.cons.inj hos).2

end Codegen.Frame
