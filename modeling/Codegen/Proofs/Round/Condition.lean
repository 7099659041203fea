import Codegen.Proofs.Lowering.Kept
import Codegen.Proofs.Lowering.Shaped
import Codegen.Proofs.Round.Run

/-!
# Lowering of expressions and conditions

An expression has nothing to do with the loops around it: it registers none, and its instructions
name what is bound to variables and what it made itself. A condition compares values in brackets,
which bring all variables back, and jumps to its two outcomes and to labels of its own.

* `Evaluated`: what the lowering of an expression does;
* `LowersPart.evaluated`: **an expression keeps to itself if its operands do**;
* `Shape.StepsOf.run`: the steps in order;
* `Shape.ConditionOf.run`: **a condition uses its two outcomes as exits**.
-/

namespace Codegen

open Generating Shape

variable {t : Tree} {symbols : SymbolTable} {W s : Shape} {pl : Place} {path ss : List Shape}
variable {c : Exits} {r r' r₀ r₁ : Routine} {x? : Option ValueId} {x : ValueId}
variable {sub : PartLowering} {u : Unit}

/-- **What the lowering of an expression does**, in the course of something longer. -/
structure Evaluated (t : Tree) (c : Exits) (r₀ r : Routine) (x? : Option ValueId)
    (r' : Routine) : Prop where
  run : Run t c r₀ r'
  kept : Kept r r'
  value : ∀ x, x? = some x → Known c.actives r₀ x

/-- The lowering of expressions keeps to itself. -/
def Evaluates (t : Tree) (W : Shape) (sub : PartLowering) : Prop :=
  ∀ {pl path s ss c r₀ r x? r'}, W.In pl path s → s.Valued pl → s.kind.isStatement = false →
    Run t c r₀ r → c.Old r₀ → sub path s ss r x? r' → Evaluated t c r₀ r x? r'

variable (hsub : Evaluates t W sub) (hW : W.Layered) (h₀ : Run t c r₀ r) (ho : c.Old r₀)
include hsub

theorem Evaluates.value (hs : W.In pl path s) (hv : s.Valued pl)
    (hk : s.kind.isStatement = false) (h₀ : Run t c r₀ r) (ho : c.Old r₀) (h : sub path s ss r (some x) r') :
    Run t c r₀ r' ∧ Kept r r' ∧ Known c.actives r₀ x :=
  have e := hsub hs hv hk h₀ ho h
  ⟨e.run, e.kept, e.value x rfl⟩

theorem AllParts.evaluated {xs : List ValueId} (hs : ∀ s ∈ ss, W.In .plain path s)
    (hk : ∀ s ∈ ss, s.kind.isStatement = false) (h₀ : Run t c r₀ r) (ho : c.Old r₀)
    (h : AllParts sub path ss r xs r') :
    Run t c r₀ r' ∧ Kept r r' ∧ ∀ x ∈ xs, Known c.actives r₀ x := by
  induction h with
  | nil => exact ⟨h₀, .refl _, by simp⟩
  | cons h _ ih =>
    simp only [List.forall_mem_cons] at hs hk
    obtain ⟨h₁, k₁, hx⟩ := hsub.value hs.1 (.inl rfl) hk.1 h₀ ho h
    obtain ⟨h₂, k₂, hxs⟩ := ih hs.2 hk.2 h₁
    exact ⟨h₂, k₁.trans k₂, List.forall_mem_cons.mpr ⟨hx, hxs⟩⟩

theorem StatedParts.evaluated {y? : Option ValueId} (hs : ∀ s ∈ ss, W.In .plain path s)
    (hk : ∀ s ∈ ss, s.kind.isStatement = false) (h₀ : Run t c r₀ r) (ho : c.Old r₀)
    (hx : ∀ x, x? = some x → Known c.actives r₀ x) (h : StatedParts sub path x? ss r y? r') :
    Evaluated t c r₀ r y? r' := by
  induction h with
  | nil => exact ⟨h₀, .refl _, hx⟩
  | skip _ _ ih =>
    simp only [List.forall_mem_cons] at hs hk
    exact ih hs.2 hk.2 h₀ hx
  | cons _ h _ ih =>
    simp only [List.forall_mem_cons] at hs hk
    have e := hsub hs.1 (.inl rfl) hk.1 h₀ ho h
    have e' := ih hs.2 hk.2 e.run e.value
    exact ⟨e'.run, e.kept.trans e'.kept, e'.value⟩

include hW h₀ ho

/-- **An expression keeps to itself if its operands do.** -/
theorem LowersPart.evaluated (hs : W.In pl path s) (hv : s.Valued pl)
    (hk : s.kind.isStatement = false) (h : LowersPart t symbols sub path s ss r x? r') :
    Evaluated t c r₀ r x? r' := by
  have hscope : s.scope? = none := by
    unfold Shape.scope?
    split <;> simp_all [NodeKind.isStatement]
  have operand {m : Shape} (hm : m ∈ s.parts) :
      W.In .plain (s :: path) m ∧ m.kind.isStatement = false :=
    ⟨hs.operand hv hscope hm, hW.operand (hs.operand hv hscope hm) (.inl hk)⟩
  have value {m : Shape} {r r' : Routine} {x : ValueId} (hm : m ∈ s.parts) (h₀ : Run t c r₀ r)
      (h : sub (s :: path) m [] r (some x) r') :
      Run t c r₀ r' ∧ Kept r r' ∧ Known c.actives r₀ x :=
    hsub.value (operand hm).1 (.inl rfl) (operand hm).2 h₀ ho h
  cases h with
  | statements _ h =>
    exact StatedParts.evaluated hsub (fun m hm => (operand hm).1) (fun m hm => (operand hm).2) h₀ ho
      (by simp) h
  | number hk h =>
    obtain ⟨h₁, hx⟩ := h₀.create ho h
    exact ⟨h₁, .create h, by simpa using hx⟩
  | reference hk h =>
    obtain ⟨h₁, hx⟩ := h₀.valueOf ho h
    exact ⟨h₁, .valueOf h, by simpa using hx⟩
  | arithmetic hk _ hl hm g₁ g₂ g₃ =>
    obtain ⟨h₁, k₁, hx⟩ := value (List.mem_of_mem_head? hl) h₀ g₁
    obtain ⟨h₂, k₂, hy⟩ := value (List.mem_of_getLast? hm) h₁ g₂
    obtain ⟨h₃, hz⟩ := g₃.elim (fun g => h₂.combined ho g hx hy) fun g => h₂.combined ho g.2 hy hx
    exact ⟨h₃, (k₁.trans k₂).trans (.operated g₃), by simpa using hz⟩
  | binding hk _ hl _ hm g₁ g₂ g₃ =>
    obtain ⟨h₁, k₁, hx⟩ := value (List.mem_of_getLast? hm) h₀ g₁
    obtain ⟨h₂, hz⟩ := h₁.copied ho g₂ hx
    exact ⟨h₂.bind ho g₃ hz, k₁.trans ((Kept.copied g₂).trans (.bind g₃)), by simpa using hz⟩
  | store hk _ hl _ hm g₁ g₂ g₃ =>
    obtain ⟨h₁, k₁, hx⟩ := value (List.mem_of_mem_head? hl) h₀ g₁
    obtain ⟨h₂, k₂, hz⟩ := value (List.mem_of_getLast? hm) h₁ g₂
    obtain ⟨h₃, -⟩ := h₂.plain ho (append_appended g₃) rfl
      (by simp [InstructionKind.parameters, hx, hz])
    exact ⟨h₃, (k₁.trans k₂).trans (.append g₃), by simpa using hz⟩
  | link hk hl g₁ g₂ =>
    obtain ⟨h₁, k₁, hx⟩ := value (List.mem_of_mem_head? hl) h₀ g₁
    obtain ⟨h₂, hz⟩ := h₁.plain ho (append_appended g₂) rfl
      (by simp [InstructionKind.parameters, hx])
    exact ⟨h₂, k₁.trans (.append g₂), by simpa using hz⟩
  | offset hk hl hm g₁ g₂ g₃ =>
    obtain ⟨h₁, k₁, hx⟩ := value (List.mem_of_mem_head? hl) h₀ g₁
    obtain ⟨h₂, k₂, hy⟩ := value (List.mem_of_getLast? hm) h₁ g₂
    obtain ⟨h₃, hz⟩ := h₂.plain ho (append_appended g₃) rfl
      (by simp [InstructionKind.parameters, hx, hy])
    exact ⟨h₃, (k₁.trans k₂).trans (.append g₃), by simpa using hz⟩
  | call hk g₁ g₂ _ g₃ =>
    obtain ⟨h₁, k₁, hxs⟩ := AllParts.evaluated hsub (fun m hm => (operand hm).1)
      (fun m hm => (operand hm).2) h₀ ho g₁
    obtain ⟨h₂, -⟩ := h₁.plain ho (append_appended g₂) rfl (by simp [InstructionKind.parameters])
    obtain ⟨h₃, hz⟩ := h₂.plain ho (append_appended g₃) rfl
      (by simpa [InstructionKind.parameters] using hxs)
    exact ⟨h₃, k₁.trans ((Kept.append g₂).trans (.append g₃)), by simpa using hz⟩
  | stackAddress hk g =>
    have h₁ : Run t c r₀ { r with identities := r.identities + 1 } :=
      h₀.congr rfl rfl rfl h₀.bound
    obtain ⟨h₂, hx⟩ := h₁.plain ho (append_appended g) rfl (by simp [InstructionKind.parameters])
    exact ⟨h₂, ⟨(Kept.append g).tree, (Kept.append g).symbols, (Kept.append g).loops⟩,
      by simpa using hx⟩
  | chain hk' | forever hk' | pretested hk' | control hk' | ret hk' | retValue hk' =>
    rw [hk'] at hk
    simp [NodeKind.isStatement] at hk

end Codegen

/-! ## Conditions -/

namespace Codegen

open Generating Shape

variable {t : Tree} {symbols : SymbolTable} {W q x : Shape} {path : List Shape} {c : Exits}
variable {r r' r₀ : Routine} {sub : PartLowering} {steps : List Step}
variable {success failure next : Label}

variable (hsub : Evaluates t W sub) (hW : W.Layered)
include hsub hW

namespace Shape

theorem ComparesParts.run (hx : W.In .condition path x) (hk : x.kind.isConnective = false)
    (h₀ : Run t c r₀ r) (ho : c.Old r₀) (h : ComparesParts sub path x r r') :
    Run t c r₀ r' ∧ Kept r r' := by
  have hs := hW.condition hx
  cases h with
  | comparison _ hl hm h₁ h₂ h₃ =>
    have hscope : x.scope? = none := by
      unfold Shape.scope?
      split <;> simp_all [NodeKind.isStatement]
    have operand {m : Shape} (hm : m ∈ x.parts) := hx.operand (.inr ⟨rfl, hk⟩) hscope hm
    have hl := operand (List.mem_of_mem_head? hl)
    have hm := operand (List.mem_of_getLast? hm)
    obtain ⟨g₁, k₁, hu⟩ := hsub.value hl (.inl rfl) (hW.operand hl (.inl hs)) h₀ ho h₁
    obtain ⟨g₂, k₂, hv⟩ := hsub.value hm (.inl rfl) (hW.operand hm (.inl hs)) g₁ ho h₂
    obtain ⟨g₃, -⟩ := g₂.plain ho (append_appended h₃) rfl
      (by simp [InstructionKind.parameters, hu, hv])
    exact ⟨g₃, (k₁.trans k₂).trans (.append h₃)⟩
  | truth _ h₁ h₂ h₃ =>
    obtain ⟨g₁, k₁, hu⟩ := hsub.value hx (.inr ⟨rfl, hk⟩) hs h₀ ho h₁
    obtain ⟨g₂, hv⟩ := g₁.create ho h₂
    obtain ⟨g₃, -⟩ := g₂.plain ho (append_appended h₃) rfl
      (by simp [InstructionKind.parameters, hu, hv])
    exact ⟨g₃, (k₁.trans (.create h₂)).trans (.append h₃)⟩

/-- The steps of a condition in order. -/
theorem StepsOf.run (hq : W.In .condition path q) (ht : ∀ l ∈ Step.targets steps, l ∈ c.labels)
    (hr : Covered r) (ho : c.Old r) (h : StepsOf sub path q steps r r') :
    Run t c r r' ∧ r'.loops = r.loops ∧ ∀ l test, .jump l test ∈ steps →
      ∃ j : Nat, r.kinds.length ≤ j ∧ r'.kinds[j]? = some (.jump l test) := by
  induction h with
  | nil => exact ⟨.refl hr, rfl, by simp⟩
  | @compare a b path' x l steps r r₁ r' hx _ _ h _ ih =>
    obtain ⟨hin, hk⟩ := hq.tests hx
    obtain ⟨p, p', h, h₀, hl₀, hl₁, -, hrun⟩ := Run.bracketed (t := t) h hr
    obtain ⟨h₁, k₁⟩ := ComparesParts.run hsub hW hin hk (h₀.of_closed c) ho h
    replace h₁ := hrun c ho h₁
    replace hl₁ : r₁.loops = r.loops := hl₁.trans (k₁.loops.trans hl₀)
    obtain ⟨h₂, hl₂, hj⟩ := ih ht h₁.covered (ho.run h₁)
    refine ⟨h₁.trans ho h₂, hl₂.trans hl₁, fun l test hm => ?_⟩
    obtain ⟨j, hj, hk⟩ := hj l test (by simpa using hm)
    exact ⟨j, Nat.le_trans h₁.kinds.length_le hj, hk⟩
  | @jump l test steps r r₁ r' h _ ih =>
    simp only [Step.targets_cons_jump, List.forall_mem_cons] at ht
    have h₁ := (Run.refl (t := t) hr).jump ho h fun _ => .inr ht.1
    obtain ⟨h₂, hl₂, hj⟩ := ih ht.2 h₁.covered (ho.run h₁)
    refine ⟨h₁.trans ho h₂, hl₂.trans (Kept.jump h).loops, fun m test' hm => ?_⟩
    rcases List.mem_cons.mp hm with hm | hm
    · cases hm
      obtain ⟨x, hx⟩ := appendJump_appended h
      exact ⟨r.kinds.length, Nat.le_refl _, h₂.kept (by simp [hx.kinds])⟩
    · obtain ⟨j, hj, hk⟩ := hj m test' hm
      exact ⟨j, Nat.le_trans h₁.kinds.length_le hj, hk⟩
  | @label l steps r r₁ r' h _ ih =>
    have h₁ := (Run.refl hr).label (t := t) ho h
    obtain ⟨h₂, hl₂, hj⟩ := ih ht h₁.covered (ho.run h₁)
    refine ⟨h₁.trans ho h₂, hl₂.trans (Kept.label h).loops, fun m test hm => ?_⟩
    obtain ⟨j, hj, hk⟩ := hj m test (by simpa using hm)
    exact ⟨j, Nat.le_trans h₁.kinds.length_le hj, hk⟩

/-- **A condition uses its two outcomes as exits.** A conditional jump leads to its success, unless
that follows. -/
theorem ConditionOf.run (hq : W.In .condition path q) (hr : Covered r) (hs : success < r.labels)
    (hf : failure < r.labels)
    (h : ConditionOf t symbols sub path q success failure next r r') :
    Run t ⟨[], none, [success, failure], none⟩ r r' ∧ r'.loops = r.loops ∧
      (success ≠ next → ∃ (j : Nat) (test : JumpTest), r.kinds.length ≤ j ∧
        r'.kinds[j]? = some (.jump success (some test))) := by
  obtain ⟨steps, labels, tree, hout, h⟩ := h
  have htargets {l : Label} (hl : l ∈ Step.targets (Step.simplify (steps ++ [.label next]))) :
      l = success ∨ l = failure ∨ r.labels ≤ l ∧ l < labels := by
    refine hout.targets ?_
    simpa using Step.targets_simplify _ hl
  have hr' : Covered { r with labels, tree } := ⟨hr.isSet, hr.named⟩
  have hold : (Exits.mk [] none (Step.targets (Step.simplify (steps ++ [.label next]))) none).Old
      { r with labels, tree } := by
    refine ⟨by simp, fun l hl => ?_⟩
    rcases htargets hl with rfl | rfl | hl
    · exact Nat.lt_of_lt_of_le hs hout.le
    · exact Nat.lt_of_lt_of_le hf hout.le
    · exact hl.2
  obtain ⟨h₁, hl₁, hj₁⟩ := StepsOf.run hsub hW hq (fun _ h => h) hr' hold h
  refine ⟨(h₁.rebase (r := r) rfl rfl rfl hout.le).weaken (fun _ h => h) (by simp)
    (fun l hl => ?_) (by simp), hl₁, fun hn => ?_⟩
  · rcases htargets hl with rfl | rfl | hl
    · exact .inr (by simp)
    · exact .inr (by simp)
    · exact .inl hl.1
  · have hnot : success ∉ Step.labels (steps ++ [.label next]) := by
      simp only [Step.labels_append, Step.labels_cons_label, Step.labels_nil, List.mem_append,
        List.mem_singleton, not_or]
      exact ⟨fun hl => absurd (hout.labels hl).1 (Nat.not_le.mpr hs), hn⟩
    obtain ⟨test, hm⟩ := hout.succeeds
    obtain ⟨test, hm⟩ := Step.exists_jump_simplify hnot ⟨test, List.mem_append_left _ hm⟩
    obtain ⟨j, hj⟩ := hj₁ success (some test) hm
    exact ⟨j, test, hj⟩

end Shape

end Codegen
