import Codegen.Proofs.Control.Part
import Codegen.Proofs.Control.Steps

/-!
# Conditions that test what they should

* `Shape.Numbered`: each node of a shape is at one place;
* `Shape.StepsOf.follows`: the instructions of steps do what the steps do;
* `Shape.ConditionOf.traced`, `TestOf.traced`: **a condition leads to the label of its outcome**;
* `Shape.TestOf.ahead`: a test in front of what it decides on.
-/

namespace Codegen

open Generating Shape

/-- Each node of a shape is at one place. -/
def Shape.Numbered (W : Shape) : Prop :=
  ∀ {pl pl' : Place} {path path' : List Shape} {s s' : Shape}, W.In pl path s →
    W.In pl' path' s' → s.id = s'.id → pl = pl' ∧ path = path' ∧ s = s'

variable {o : Oracle} {R : Routine} {t : Tree} {symbols : SymbolTable}
variable {W s q x : Shape} {targets : Option (LoopControl → Label)} {path path' cs : List Shape}
variable {n : Nat} {r r' r₁ : Routine} {sub : PartLowering} {success failure next : Label}
variable {steps : List Step} {operands : NodeId → Exec Unit} {x? : Option ValueId}

/-! ## Comparisons of a condition -/

theorem NodeKind.isConnective_cases {k : NodeKind} (h : k.isConnective = true) :
    k.isLoop = false ∧ ∀ c, k ≠ .control c := by
  cases k <;> simp_all [NodeKind.isConnective, NodeKind.isLoop]

namespace Shape

theorem Tests.aimed (hx : Tests path q path' x) (ha : Aimed targets path r)
    (hc : q.isConfined targets.isSome = true) :
    Aimed targets path' r ∧ x.isConfined targets.isSome = true ∧ path ⊆ path' := by
  induction hx with
  | here _ => exact ⟨ha, hc, fun _ h => h⟩
  | part hk hp _ ih =>
    obtain ⟨hl, hcontrol⟩ := NodeKind.isConnective_cases hk
    obtain ⟨ha, hc, hsub⟩ := ih (ha.push hl) (isConfined_part hc hl hcontrol hp)
    exact ⟨ha, hc, fun p hp => hsub (List.mem_cons_of_mem _ hp)⟩

theorem Tests.unique {path₁ path₂ : List Shape} {x' l l' : Shape} (hW : W.Numbered)
    (hq : W.In .condition path q) (hx : Tests path q path₁ x) (hx' : Tests path q path₂ x')
    (hl : x.left? = some l) (hl' : x'.left? = some l') (he : l.id = l'.id) : x = x' := by
  obtain ⟨hin, hk⟩ := hq.tests hx
  obtain ⟨hin', hk'⟩ := hq.tests hx'
  have operand {path : List Shape} {y m : Shape} (hin : W.In .condition path y)
      (hk : y.kind.isConnective = false) (hc : y.kind.isComparison = true)
      (hm : y.parts.head? = some m) : W.In .plain (y :: path) m := by
    refine hin.operand (.inr ⟨rfl, hk⟩) ?_ (List.mem_of_mem_head? hm)
    unfold scope?
    split <;> simp_all [NodeKind.isComparison]
  unfold left? at hl hl'
  split at hl <;> split at hl'
  next hc hc' =>
    obtain ⟨-, hp, -⟩ := hW (operand hin hk hc hl) (operand hin' hk' hc' hl') he
    exact (List.cons.inj hp).1
  next hc _ =>
    cases hl'
    cases (hW (operand hin hk hc hl) hin' he).1
  next _ hc' =>
    cases hl
    cases (hW hin (operand hin' hk' hc' hl') he).1
  next =>
    cases hl
    cases hl'
    exact (hW hin hin' he).2.2

/-- What the comparisons and their operands do, by the first of them. -/
theorem exists_operands (o : Oracle) (t : Tree) (symbols : SymbolTable) (n : Nat)
    (hW : W.Numbered) (hq : W.In .condition path q) :
    ∃ operands : NodeId → Exec Unit, ∀ {path' x l}, Tests path q path' x → x.left? = some l →
      operands l.id = compares o t symbols n x := by
  classical
  refine ⟨fun a => if h : ∃ x path' l, Tests path q path' x ∧ x.left? = some l ∧ l.id = a then
    compares o t symbols n h.choose else pure (), fun {path' x l} hx hl => ?_⟩
  have h : ∃ x path' l', Tests path q path' x ∧ x.left? = some l' ∧ l'.id = l.id :=
    ⟨x, path', l, hx, hl, rfl⟩
  obtain ⟨path₁, l', hx', hl', he⟩ := h.choose_spec
  rw [Tests.unique hW hq hx hx' hl hl' he.symm]
  exact dif_pos h

end Shape

/-! ## Conditions -/

variable (hsub : Performs o R t symbols W sub)
include hsub

namespace Shape

/-- The operands of a comparison, and the comparison. -/
theorem ComparesParts.performed (hx : W.In .condition path x) (hk : x.kind.isConnective = false)
    (hc : x.isConfined targets.isSome = true) (ha : Aimed targets path r)
    (h : ComparesParts sub path x r r') :
    Performed o R symbols targets path n (compares o t symbols n x) r r' := by
  have hv : x.Valued .condition := .inr ⟨rfl, hk⟩
  cases h with
  | @comparison l m u v w r₁ r₂ r' hcmp hl hm h₁ h₂ h₃ =>
    have hloop : x.kind.isLoop = false ∧ (∀ c, x.kind ≠ .control c) ∧ x.scope? = none := by
      unfold scope?
      generalize x.kind = k at hcmp
      cases k <;> simp_all [NodeKind.isComparison, NodeKind.isLoop]
    obtain ⟨hloop, hcontrol, hscope⟩ := hloop
    have hin : W.Placed targets (x :: path) x.parts := fun c hp =>
      ⟨hx.operand hv hscope hp, isConfined_part hc hloop hcontrol hp⟩
    obtain ⟨e₁, hu, hv⟩ := hsub.operands (n := n) hin hl hm (ha.push hloop) h₁ h₂
    have e₂ : Performed o R symbols targets (x :: path) n
        (Exec.perform (.compare (some l) (some m))) r₂ r' :=
      append_performed h₃ e₁.grown.led (pair_leads hu.leader hv.leader)
        (fun hR => .compare (hu.denotes hR) (hv.denotes hR)) (by simp)
    rw [compares, if_pos hcmp, hl, hm, ← bind_assoc]
    exact (e₁.bind e₂).mono (List.subset_cons_self _ _)
  | @truth z f u v w r₁ r₂ r' htruth h₁ h₂ h₃ hz =>
    simp only [NodeKind.isTruth, Bool.and_eq_true, Bool.not_eq_true'] at htruth
    obtain ⟨e₁, hu⟩ := hsub.part hx hv (by simp) hc .nil ha h₁ n
    have e₂ : Silent r₁ r₂ := .create h₂ e₁.grown.led (constant_refers z)
    have hu := (hu u rfl).before e₂.before
    have hleads := (create_onward h₂ e₁.grown.led (constant_refers z)).2
    have hzero (hR : r₂.Before R) : R.values.handleAt v = .constant z := by
      rw [hR.handle hleads, create_handleAt h₂]
    have e₃ : Performed o R symbols targets path n (Exec.perform (.compare (some x) none)) r₂ r' :=
      append_performed h₃ e₂.led (pair_leads hu.leader hleads)
        (fun hR => .truth (hu.denotes hR) (hzero hR) hz) (by simp)
    rw [compares, htruth.2]
    exact e₁.bind (e₃.behind e₂)

omit hsub

/-- Where a walk arrives: at the label that it is led to, or behind the instructions. -/
def arrival (R r : Routine) : Option Label → Nat
  | none => r.kinds.length
  | some l => landing R.kinds l

/-- **The instructions of steps do what the steps do**, whatever label a jump leads to before
them. -/
theorem StepsOf.follows (hks : Labelled R.kinds)
    (hop : ∀ {path' x l r r'}, Tests path q path' x → x.left? = some l → Aimed targets path r →
      Bracketed (ComparesParts sub path' x) r r' →
      Performed o R symbols targets path n (operands l.id) r r')
    (ha : Aimed targets path r) (h : StepsOf sub path q steps r r') :
    Grown path r r' ∧ (r'.Before R → ∀ l?, Follows o R symbols targets n
      (Step.follow o operands l? steps) (arrival R r l?) (arrival R r')) := by
  induction h with
  | nil => exact ⟨.refl ha.led, fun _ l? => .pure .refl⟩
  | @compare a b path' x l steps r r₁ r' hx hl hal h _ ih =>
    have e := hop hx hl ha h
    obtain ⟨hg, ih⟩ := ih (ha.grown e.grown)
    refine ⟨e.grown.trans hg, fun hR l? => ?_⟩
    cases l? with
    | none =>
      rw [Step.follow_compare, hal]
      exact .bind (e.follows (hg.before.trans hR)) fun _ => ih hR none
    | some l' => exact ih hR (some l')
  | @jump l test steps r r₁ r' h _ ih =>
    obtain ⟨x, hx⟩ := appendJump_appended h
    have e : Grown path r r₁ := hx.grown (jump_onward h ha.led)
    obtain ⟨hg, ih⟩ := ih (ha.grown e)
    refine ⟨e.trans hg, fun hR l? => ?_⟩
    have hk := hx.getElem? (hg.before.trans hR)
    cases l? with
    | none =>
      intro g h hm
      rw [Step.follow_jump, ← hm.comparisons]
      cases ht : isTaken o (comparisons g) test with
      | true =>
        exact .mono (Nat.le_add_right _ _)
          (.after (hks.reaches_landing hk ht) (ih hR (some l) g h hm))
      | false =>
        have hlen : r₁.kinds.length = r.kinds.length + 1 := by simp [hx.kinds]
        exact .mono (Nat.le_add_right _ _)
          (.after (reaches_next hk ht) (hlen ▸ ih hR none g h hm))
    | some l' => exact ih hR (some l')
  | @label l steps r r₁ r' h _ ih =>
    obtain ⟨x, hx⟩ := appendLabel_appended h
    have e : Silent r r₁ := .label h ha.led
    obtain ⟨hg, ih⟩ := ih (ha.silent e)
    refine ⟨e.grown.trans hg, fun hR l? => ?_⟩
    have hpass := e.passes (o := o) (hg.before.trans hR)
    cases l? with
    | none => exact .behind hpass (ih hR none)
    | some l' =>
      rw [Step.follow_to_label]
      split
      next he =>
        subst he
        have hlanding := hks.landing_eq (hx.getElem? (hg.before.trans hR))
        exact .behind (.trans (.of_eq hlanding) hpass) (ih hR none)
      next => exact ih hR (some l')

/-- Where a condition leads, in front of a label. -/
def outcome (success failure next : Label) (holds : Bool) : Option Label :=
  if (if holds then success else failure) = next then none
  else some (if holds then success else failure)

theorem follow_outcome (holds : Bool) :
    Step.follow o operands (some (if holds then success else failure)) [.label next] =
      pure (outcome success failure next holds) := by
  unfold outcome
  rw [Step.follow_to_label]
  split <;> rfl

variable (hsub : Performs o R t symbols W sub) (hW : W.Numbered) (hf : W.Formed)
  (hks : Labelled R.kinds)
include hsub hW hf hks

/-- **A condition leads to the label of its outcome**, or behind its instructions if that is the
label in front of which they are. -/
theorem ConditionOf.traced (hq : W.In .condition path q)
    (hc : q.isConfined targets.isSome = true) (ha : Aimed targets path r)
    (hs : success < r.labels) (hfail : failure < r.labels)
    (h : ConditionOf t symbols sub path q success failure next r r') :
    Traced o R symbols targets path n (test o t symbols q n) r r'
      fun holds => arrival R r' (outcome success failure next holds) := by
  obtain ⟨steps, labels, tree, hout, h⟩ := h
  obtain ⟨operands, hop⟩ := exists_operands o t symbols n hW hq
  have hcompare {path' x l q₁ q₂} (hx : Tests path q path' x) (hl : x.left? = some l)
      (ha : Aimed targets path q₁) (h : Bracketed (ComparesParts sub path' x) q₁ q₂) :
      Performed o R symbols targets path n (operands l.id) q₁ q₂ := by
    rw [hop hx hl]
    obtain ⟨hin, hk⟩ := hq.tests hx
    refine h.performed ha.led fun hs hstep => ?_
    obtain ⟨ha, hc, hsub'⟩ := hx.aimed (ha.silent hs) hc
    exact (ComparesParts.performed hsub hin hk hc ha hstep).mono hsub'
  have e : Grown path r { r with labels, tree } := .context ha.led _ _ _ hout.le
  obtain ⟨hg, hfollow⟩ := StepsOf.follows hks hcompare (ha.grown e) h
  refine ⟨e.trans hg, fun hR => .of_map (f := outcome success failure next) ?_⟩
  have hfollow := hfollow hR none
  rw [Step.follow_simplify, hout.follow hs hfail hq hf.single hop] at hfollow
  simp only [follow_outcome] at hfollow
  exact hfollow

omit hsub hW hf hks in
theorem testLast_cons {ss : List Shape} (h : ss ≠ []) :
    testLast o t symbols (s :: ss) n =
      (do run o t symbols s ss n; testLast o t symbols ss n) := by
  cases ss with
  | nil => exact absurd rfl h
  | cons c cs => rw [testLast]; simp

omit hW hf hks in
/-- The statements before a condition. -/
theorem EachPart.performed {c : Shape} {x? : Option ValueId}
    (hin : W.Placed targets path (c :: cs))
    (hq : q.kind.isAlternative = false) (ha : Aimed targets path r)
    (h : sub path c (cs ++ [q]) r x? r') :
    Performed o R symbols targets path n (run o t symbols c (cs ++ [q]) n) r r' := by
  refine (hsub.statement hin.head (fun b hb => ?_) ha h).1
  rcases List.mem_append.mp ((followers_sublist _ _).subset hb) with hm | hm
  · exact hin.tail b hm
  · have hk := followers_alternative hb
    rw [List.mem_singleton.mp hm, hq] at hk
    cases hk

omit hW hf hks in
theorem EachPart.grown (hin : W.Placed targets path cs) (hq : q.kind.isAlternative = false)
    (ha : Aimed targets path r) (h : EachPart sub path [q] cs r r₁) : Grown path r r₁ := by
  induction h with
  | nil => exact .refl ha.led
  | cons h _ ih =>
    have e := EachPart.performed (n := 0) hsub hin hq ha h
    exact e.grown.trans (ih hin.tail (ha.grown e.grown))

omit hW hf hks in
/-- The statements before a condition, and the condition. -/
theorem EachPart.testLast {ends : Bool → Nat} (hin : W.Placed targets path cs)
    (hq : q.kind.isAlternative = false) (ha : Aimed targets path r)
    (h : EachPart sub path [q] cs r r₁)
    (htest : Aimed targets path r₁ →
      Traced o R symbols targets path n (test o t symbols q n) r₁ r' ends) :
    Traced o R symbols targets path n (testLast o t symbols (cs ++ [q]) n) r r' ends := by
  induction h with
  | nil =>
    rw [List.nil_append, Shape.testLast]
    exact htest ha
  | @cons c cs x? r r₂ r₁ h _ ih =>
    have e := EachPart.performed (n := n) hsub hin hq ha h
    rw [List.cons_append, testLast_cons (by simp)]
    exact e.bind (ih hin.tail (ha.grown e.grown) htest)

/-- **A test of a branch or a loop**, with the statements before it. -/
theorem TestOf.traced {labels : Label → Label × Label × Label} (hin : W.In .plain path s)
    (hc : ∀ c, s.scope? = some c → c.isConfined targets.isSome = true)
    (ha : Aimed targets (s :: path) r)
    (hs : ∀ l, r.labels ≤ l → (labels l).1 < l + 1 ∧ (labels l).2.1 < l + 1)
    (h : TestOf t symbols sub path s labels r r') :
    ∃ l, r.labels ≤ l ∧ ∀ n, Traced o R symbols targets (s :: path) n (holds o t symbols s n) r r'
      fun b => arrival R r' (outcome (labels l).1 (labels l).2.1 (labels l).2.2 b) := by
  obtain ⟨c, cs, q, r₁, hscope, hp, h₁, h₂⟩ := h
  have hinc : W.In .scope (s :: path) c := .part hin (scope_place hscope)
  obtain ⟨k, hk⟩ := hf.scope hinc
  have hplaces := places_scope hp
  have part {b : Shape} (hb : b ∈ c.parts) : b.isConfined targets.isSome = true :=
    isConfined_part (hc c hscope) (by simp [hk, NodeKind.isLoop]) (by simp [hk]) hb
  have hinq : W.In .condition (c :: s :: path) q := .part hinc (by simp [hplaces])
  have hcs : W.Placed targets (c :: s :: path) cs := fun b hb =>
    ⟨.part hinc (by simp [hplaces, hb]), part (by simp [hp, hb])⟩
  have ha := ha.push (s := c) (by simp [hk, NodeKind.isLoop])
  have hg := EachPart.grown hsub hcs (hf.condition hinq) ha h₁
  have hle := hs r₁.labels hg.labels
  refine ⟨r₁.labels, hg.labels, fun n => ?_⟩
  have e : Traced o R symbols targets (c :: s :: path) n
      (testLast o t symbols (cs ++ [q]) n) r r' _ :=
    EachPart.testLast hsub hcs (hf.condition hinq) ha h₁ fun ha =>
      have hg : Grown (c :: s :: path) r₁ { r₁ with labels := r₁.labels + 1 } :=
        .context ha.led _ _ _ (Nat.le_succ _)
      have e := ConditionOf.traced hsub hW hf hks hinq (part (by simp [hp])) (ha.grown hg)
        hle.1 hle.2 h₂
      ⟨hg.trans e.grown, e.follows⟩
  have hholds : holds o t symbols s n = testLast o t symbols (cs ++ [q]) n := by
    rw [holds]
    split <;> simp_all
  exact hholds ▸ e.mono (List.subset_cons_self _ _)

/-- A test in front of what it decides on, which leads to a label if it fails. -/
theorem TestOf.ahead (hin : W.In .plain path s)
    (hc : ∀ c, s.scope? = some c → c.isConfined targets.isSome = true)
    (ha : Aimed targets (s :: path) r) (hfail : failure < r.labels)
    (h : TestOf t symbols sub path s (fun enter => (enter, failure, enter)) r r') :
    Traced o R symbols targets (s :: path) n (holds o t symbols s n) r r'
      fun b => if b then r'.kinds.length else landing R.kinds failure := by
  have hlt {l : Label} (hl : r.labels ≤ l) : failure < l := Nat.lt_of_lt_of_le hfail hl
  obtain ⟨l, hl, e⟩ := TestOf.traced hsub hW hf hks hin hc ha
    (fun l hl => ⟨Nat.lt_succ_self l, Nat.lt_succ_of_lt (hlt hl)⟩) h
  have hends : (fun b => arrival R r' (outcome l failure l b)) =
      fun b => if b then r'.kinds.length else landing R.kinds failure := by
    have hne : failure ≠ l := Nat.ne_of_lt (hlt hl)
    funext b
    cases b <;> simp [outcome, arrival, hne]
  exact hends ▸ e n

end Shape

end Codegen
