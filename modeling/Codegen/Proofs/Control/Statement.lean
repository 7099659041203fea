import Codegen.Proofs.Control.Test

/-!
# Statements that do what they should

* `Shape.StatedParts.performed`, `AllParts.performed`, `FirstPart.performed`: parts in order;
* `Shape.BranchesOf.follows`, `chain_performed`: **chains of branches**;
* `Shape.ControlOf.performed`: statements that leave or restart a loop;
* `Entered`: the beginning of a round, and where control statements in it lead;
* `Shape.ForeverOf.performed`, `Shape.PretestedOf.performed`: **loops**.
-/

namespace Codegen

open Generating Shape

variable {o : Oracle} {R : Routine} {t : Tree} {symbols : SymbolTable}
variable {W s : Shape} {targets : Option (LoopControl → Label)} {path cs ss : List Shape}
variable {n : Nat} {r r' r₁ r₂ r₃ : Routine} {sub : PartLowering} {x? y? : Option ValueId}
variable {failure start stop : Label} {actives : List Binding} {symmetry : Nat}

theorem NodeKind.isBranch_cases {k : NodeKind} (h : k.isBranch = true) :
    k.isLoop = false ∧ ∀ c, k ≠ .control c := by
  cases k <;> simp_all [isBranch, isLoop]

theorem NodeKind.isBranch_of_isAlternative {k : NodeKind} (h : k.isAlternative = true) :
    k.isBranch = true := by
  cases k <;> simp_all [isAlternative, isBranch]

namespace Shape

theorem lastStatement?_skip (hk : s.kind.isAlternative = true) :
    lastStatement? (s :: ss) = lastStatement? ss := by
  simp [lastStatement?, hk]

theorem lastStatement?_cons (hk : s.kind.isAlternative = false) :
    lastStatement? (s :: ss) = (lastStatement? ss).or (some s) := by
  simp [lastStatement?, hk, List.getLast?_cons, Option.or_some]

variable (hsub : Performs o R t symbols W sub)
include hsub

/-! ## Parts in order -/

/-- Statements, whose value is that of the last one. -/
theorem StatedParts.performed (hin : W.Placed targets path cs) (ha : Aimed targets path r)
    (h : StatedParts sub path x? cs r y? r') :
    Performed o R symbols targets path n (runStatements o t symbols cs n) r r' ∧
      ∀ y ∈ y?, (∃ c, lastStatement? cs = some c ∧ Gives R symbols c r' y) ∨
        lastStatement? cs = none ∧ y ∈ x? := by
  induction h with
  | nil =>
    rw [runStatements]
    exact ⟨(Silent.refl ha.led).performed, fun y hy => .inr ⟨rfl, hy⟩⟩
  | skip hk _ ih =>
    rw [runStatements, if_pos hk, lastStatement?_skip hk]
    exact ih hin.tail ha
  | @cons s ss _ _ _ _ _ _ hk h _ ih =>
    obtain ⟨e, hy⟩ := hsub.statement (n := n) hin.head hin.tail.followers ha h
    obtain ⟨e', hz⟩ := ih hin.tail (ha.grown e.grown)
    rw [runStatements, hk, lastStatement?_cons hk]
    refine ⟨e.bind e', fun z hm => .inl ?_⟩
    rcases hz z hm with ⟨c, hc, hz⟩ | ⟨hnone, hm⟩
    · exact ⟨c, by rw [hc, Option.some_or], hz⟩
    · exact ⟨s, by rw [hnone, Option.none_or], (hy z hm).before e'.grown.before⟩

theorem AllParts.performed {xs : List ValueId} (hin : W.Placed targets path cs)
    (ha : Aimed targets path r) (h : AllParts sub path cs r xs r') :
    Performed o R symbols targets path n (runEach o t symbols cs n) r r' ∧
      List.Forall₂ (fun c => Gives R symbols c r') cs xs := by
  induction h with
  | nil =>
    rw [runEach]
    exact ⟨(Silent.refl ha.led).performed, .nil⟩
  | cons h _ ih =>
    obtain ⟨e, hx⟩ := hsub.statement (n := n) hin.head .nil ha h
    obtain ⟨e', hxs⟩ := ih hin.tail (ha.grown e.grown)
    rw [runEach]
    exact ⟨e.bind e', .cons ((hx _ rfl).before e'.grown.before) hxs⟩

/-- The first part. -/
theorem FirstPart.performed (hin : ∀ c cs', cs = c :: cs' → (W.In .plain path c ∧
      c.isConfined targets.isSome = true) ∧ W.Placed targets path (followers c.kind cs'))
    (ha : Aimed targets path r) (h : FirstPart sub path cs r r') :
    Performed o R symbols targets path n (runFirst o t symbols cs n) r r' := by
  cases h with
  | nil =>
    rw [runFirst]
    exact (Silent.refl ha.led).performed
  | cons h =>
    rw [runFirst]
    obtain ⟨hin, hfollow⟩ := hin _ _ rfl
    exact (hsub.statement hin hfollow ha h).1

/-! ## Branches -/

/-- The body of a branch or a round. -/
theorem body_performed {b : Shape} {bs : List Shape} (hin : W.Placed targets (s :: path) s.bodyOn)
    (ha : Aimed targets (s :: path) r) (hb : s.bodyOn = b :: bs)
    (h : sub (s :: path) b bs r x? r') :
    Performed o R symbols targets (s :: path) n (runBody o t symbols s n) r r' := by
  rw [hb] at hin
  rw [runBody, hb, runFirst]
  exact (hsub.statement hin.head hin.tail.followers ha h).1

theorem BranchBody.performed (hin : W.Placed targets (s :: path) s.bodyOn)
    (ha : Aimed targets (s :: path) r) (h : BranchBody sub path s r r') :
    Performed o R symbols targets path n (runBody o t symbols s n) r r' := by
  obtain ⟨b, bs, r₁, hb, h₁, h₂⟩ := h
  have e : Performed o R symbols targets (s :: path) n (runBody o t symbols s n) r r₁ :=
    h₁.performed ha.led fun hs ⟨x?, h⟩ => body_performed hsub hin (ha.silent hs) hb h
  exact (e.mono (List.subset_cons_self _ _)).ahead <|
    .prepared h₂ e.grown.led fun b hb => e.grown.before.leader (ha.led.bindings b hb)

variable (hW : W.Numbered) (hf : W.Formed) (hks : Labelled R.kinds)
include hW hf hks

/-- A branch, whose test leads on where it does not hold. -/
theorem BranchOf.traced (hin : W.In .plain path s) (hk : s.kind.isBranch = true)
    (hc : s.isConfined targets.isSome = true) (ha : Aimed targets path r)
    (hfail : failure < r.labels) (h : BranchOf t symbols sub path s failure r r') :
    Traced o R symbols targets path n (runBranch o t symbols s n) r r'
      fun taken => if taken then r'.kinds.length else landing R.kinds failure := by
  have hkind := NodeKind.isBranch_cases hk
  have part {c : Shape} (hp : c ∈ s.parts) : c.isConfined targets.isSome = true :=
    isConfined_part hc hkind.1 hkind.2 hp
  have hbody : W.Placed targets (s :: path) s.bodyOn := fun b hb =>
    ⟨.part hin (body_place hb), part (mem_parts (body_place hb))⟩
  have ha := ha.push hkind.1
  obtain ⟨r₁, ⟨hcond, h₁⟩ | ⟨hcond, rfl⟩, h₂⟩ := h
  · have e₁ := TestOf.ahead (o := o) (n := n) hsub hW hf hks hin
      (fun c hc => part (mem_parts (scope_place hc))) ha hfail h₁
    have e₂ := BranchBody.performed (n := n) hsub hbody (ha.grown e₁.grown) h₂
    rw [runBranch, if_pos hcond]
    refine ⟨(e₁.grown.mono (List.subset_cons_self _ _)).trans e₂.grown, fun hR => ?_⟩
    refine .bind (e₁.follows (e₂.grown.before.trans hR)) fun b => ?_
    cases b with
    | true => exact .bind (e₂.follows hR) fun _ => .pure .refl
    | false => exact .pure .refl
  · have e₂ := BranchBody.performed (n := n) hsub hbody ha h₂
    rw [runBranch, hcond]
    exact ⟨e₂.grown, fun hR => .bind (e₂.follows hR) fun _ => .pure .refl⟩

omit hsub hW hf hks in
theorem runChain_last (h : followers s.kind ss = []) :
    runChain o t symbols s ss n = (do let _ ← runBranch o t symbols s n) := by
  cases ss with
  | nil =>
    rw [runChain]
    congr 1
    funext taken
    cases taken <;> rfl
  | cons b bs =>
    have hc : ¬ (s.kind.isConditional && b.kind.isAlternative) = true := fun hc => by
      rw [followers, if_pos hc] at h
      cases h
    rw [runChain]
    congr 1
    funext taken
    simp only [hc, Bool.false_eq_true, if_false, ite_self]

/-- The last branch of a chain. -/
theorem BranchOf.last (hin : W.In .plain path s) (hk : s.kind.isBranch = true)
    (hc : s.isConfined targets.isSome = true) (ha : Aimed targets path r)
    (hstop : stop < r.labels) (hlast : followers s.kind ss = [])
    (h : BranchOf t symbols sub path s stop r r') :
    Grown path r r' ∧ (r'.Before R → landing R.kinds stop = r'.kinds.length →
      Follows o R symbols targets n (runChain o t symbols s ss n) r.kinds.length
        fun _ => r'.kinds.length) := by
  have e := BranchOf.traced (o := o) (n := n) hsub hW hf hks hin hk hc ha hstop h
  refine ⟨e.grown, fun hR hlanding => ?_⟩
  rw [runChain_last hlast]
  refine .bind (e.follows hR) fun taken => ?_
  cases taken with
  | true => exact .pure .refl
  | false => exact .pure (.of_eq hlanding)

/-- The branches of a chain, if the label of its end is behind them. -/
theorem BranchesOf.follows (hin : W.Placed targets path (s :: followers s.kind ss))
    (hk : s.kind.isBranch = true) (ha : Aimed targets path r) (hstop : stop < r.labels)
    (h : BranchesOf t symbols sub path stop (s :: followers s.kind ss) r r') :
    Grown path r r' ∧ (r'.Before R → landing R.kinds stop = r'.kinds.length →
      Follows o R symbols targets n (runChain o t symbols s ss n) r.kinds.length
        fun _ => r'.kinds.length) := by
  induction ss generalizing s r with
  | nil =>
    cases h with
    | last h => exact BranchOf.last hsub hW hf hks hin.head.1 hk hin.head.2 ha hstop rfl h
  | cons b bs ih =>
    by_cases hc : (s.kind.isConditional && b.kind.isAlternative) = true
    · rw [followers, if_pos hc] at hin h
      cases h with
      | @cons _ _ _ _ r₁ r₂ r₃ _ h hj hl hs =>
        have g₀ : Grown path r { r with labels := r.labels + 1 } :=
          .context ha.led _ _ _ (Nat.le_succ _)
        have e₁ : Traced o R symbols targets path n (runBranch o t symbols s n)
            { r with labels := r.labels + 1 } r₁ _ :=
          BranchOf.traced hsub hW hf hks hin.head.1 hk hin.head.2 (ha.grown g₀)
            (Nat.lt_succ_self _) h
        obtain ⟨x, hx⟩ := appendJump_appended hj
        have g₂ : Grown path r₁ r₂ := hx.grown (jump_onward hj e₁.grown.led)
        obtain ⟨y, hy⟩ := appendLabel_appended hl
        have e₃ : Silent r₂ r₃ := .label hl g₂.led
        have hg : Grown path r r₃ := g₀.trans (e₁.grown.trans (g₂.trans e₃.grown))
        have hbk := NodeKind.isBranch_of_isAlternative (Bool.and_eq_true_iff.mp hc).2
        obtain ⟨hg', e₂⟩ := ih hin.tail hbk (ha.grown hg)
          (Nat.lt_of_lt_of_le hstop hg.labels) hs
        refine ⟨hg.trans hg', fun hR hlanding => ?_⟩
        have hR₃ := hg'.before.trans hR
        have hR₂ := e₃.before.trans hR₃
        rw [runChain]
        refine .bind (e₁.follows (g₂.before.trans hR₂)) fun taken => ?_
        cases taken with
        | true =>
          exact .pure fun g => ⟨1, hlanding ▸ hks.reaches_landing (hx.getElem? hR₂) rfl⟩
        | false =>
          have hpass := e₃.passes (o := o) hR₃
          rw [← hks.landing_eq (hy.getElem? hR₃)] at hpass
          simp only [hc, Bool.false_eq_true, if_false, if_true]
          exact .behind hpass (e₂ hR hlanding)
    · have hlast : followers s.kind (b :: bs) = [] := by rw [followers, if_neg hc]
      rw [hlast] at hin h
      cases h with
      | last h => exact BranchOf.last hsub hW hf hks hin.head.1 hk hin.head.2 ha hstop hlast h

/-- **A chain of branches.** -/
theorem chain_performed {i : Nat} {c : ContextId} {bs : List NodeId} (hk : s.kind = .ifBranch c)
    (hin : W.Placed targets path (s :: followers s.kind ss)) (ha : Aimed targets path r)
    (h₁ : Prepared [] r r₁) (h₂ : Takes (appendMarker (.branch bs)) r₁ i r₂)
    (h₃ : BranchesOf t symbols sub path r₂.labels (s :: followers s.kind ss)
      { r₂ with labels := r₂.labels + 1 } r₃)
    (h₄ : Takes (appendLabel r₂.labels) r₃ () r') :
    Performed o R symbols targets path n (runChain o t symbols s ss n) r r' := by
  have e₁ : Silent r r₁ := .prepared h₁ ha.led (by simp)
  have e₂ : Silent r r₂ := e₁.trans (.plain h₂ e₁.led rfl rfl)
  have g₂ : Grown path r₂ { r₂ with labels := r₂.labels + 1 } :=
    .context e₂.led _ _ _ (Nat.le_succ _)
  obtain ⟨hg, e₃⟩ := BranchesOf.follows (n := n) hsub hW hf hks hin
    (by simp [hk, NodeKind.isBranch]) ((ha.silent e₂).grown g₂) (Nat.lt_succ_self _) h₃
  obtain ⟨x, hx⟩ := appendLabel_appended h₄
  have e₄ : Silent r₃ r' := .label h₄ hg.led
  have e₃ : Performed o R symbols targets path n (runChain o t symbols s ss n) r₂ r' :=
    ⟨(g₂.trans hg).trans e₄.grown, fun hR =>
      .ahead (e₃ (e₄.before.trans hR) (hks.landing_eq (hx.getElem? hR))) fun _ => e₄.passes hR⟩
  exact e₃.behind e₂

/-! ## Control statements -/

omit hsub hW hf in
/-- A statement that leaves or restarts the innermost loop around it. -/
theorem ControlOf.performed {control : LoopControl} (hk : s.kind = .control control)
    (hc : s.isConfined targets.isSome = true) (ha : Aimed targets path r)
    (h : ControlOf path control r r') :
    Performed o R symbols targets path n (throw (.control control) : Exec Unit) r r' := by
  obtain ⟨loop, record, save, r₁, i, r₂, r₃, j, hloop, hrec, h₁, h₂, h₃, h₄⟩ := h
  have htargets : targets = some record.target := by
    have hsome : targets.isSome = true := by
      rcases s with ⟨i, k, cs⟩
      obtain rfl : k = .control control := hk
      simpa [isConfined] using hc
    obtain ⟨f, rfl⟩ := Option.isSome_iff_exists.mp hsome
    obtain ⟨loop', record', hloop', hrec', rfl⟩ := ha.target f rfl
    cases hloop.symm.trans hloop'
    cases hrec.symm.trans hrec'
    rfl
  have hmem : (loop.id, record) ∈ r.loops := by
    obtain ⟨before, after, hloops, -⟩ := List.lookup_eq_some_iff.mp hrec
    simp [hloops]
  have hpairs := pairsOf_leads ha.led (ha.led.loops _ hmem)
  have e₁ : Silent r r₁ := .plain h₁ ha.led rfl rfl
  have e₂ : Silent r r₂ := e₁.trans
    (.marker h₂ e₁.led (fun q hq => e₁.onward.leader _ (hpairs q hq)) rfl)
  obtain ⟨x, hx⟩ := appendJump_appended h₃
  have g₃ : Grown path r₂ r₃ := hx.grown (jump_onward h₃ e₂.led)
  have e₄ : Silent r₃ r' := .plain h₄ g₃.led rfl rfl
  refine ⟨e₂.grown.trans (g₃.trans e₄.grown), fun hR => .control htargets ?_⟩
  have hR₃ := e₄.before.trans hR
  exact (e₂.passes (g₃.before.trans hR₃)).trans fun g =>
    ⟨1, hks.reaches_landing (hx.getElem? hR₃) rfl⟩

end Shape

/-! ## Rounds -/

/-- Where control statements lead in a loop. -/
def leads (start stop : Label) : LoopControl → Label
  | .stop => stop
  | .next => start

/-- A round begins with its label, and its loop is registered. -/
structure Entered (s : Shape) (start stop : Label) (path : List Shape) (r r' : Routine) :
    Prop where
  grown : Grown path r r'
  aimed : Aimed (some (leads start stop)) (s :: path) r'
  label : ∀ {R}, r'.Before R → R.kinds[r.kinds.length]? = some (.label start)
  passes : ∀ {o R}, r'.Before R → Passes o R.kinds (r.kinds.length + 1) r'.kinds.length

theorem entered (hk : s.kind.isLoop = true) (hp : ∀ p ∈ path, s.id ≠ p.id) (hr : r.Led)
    (ha : Bound r actives) (h₁ : Takes (appendLabel start) r () r₁)
    (h₂ : Takes (openSymmetry s.id start stop actives) r₁ symmetry r₂) :
    Entered s start stop path r r₂ := by
  obtain ⟨x, hx⟩ := appendLabel_appended h₁
  have e₁ : Silent r r₁ := .label h₁ hr
  have ha₁ : Bound r₁ actives := fun b hb => e₁.onward.leader _ (ha b hb)
  have hled := (openSymmetry_onward h₂ e₁.led ha₁).led
  obtain ⟨r₃, h₃, rfl⟩ := openSymmetry_parts h₂
  have e₂ : Silent r₁ r₃ := .marker h₃ e₁.led (observed_leads ha₁) rfl
  have b₃ : r₃.Before { r₃ with loops := (s.id, ⟨start, stop, symmetry, actives⟩) :: r₃.loops } :=
    .of_eq rfl ⟨hled, fun _ h => h, fun v _ => .refl _ v⟩
  obtain ⟨b₂, hloops, hlabels⟩ : Grown path r r₃ := e₁.grown.trans e₂.grown
  have hlen : r₁.kinds.length = r.kinds.length + 1 := by simp [hx.kinds]
  refine ⟨⟨b₂.trans b₃, fun p hp' => ?_, hlabels⟩, ⟨hled, ?_⟩, fun hR => ?_, fun hR => ?_⟩
  · rw [← hloops p hp', List.lookup_cons, beq_false_of_ne (hp p hp').symm]
  · rintro f ⟨⟩
    refine ⟨s, ⟨start, stop, symmetry, actives⟩, by simp [hk], by simp, ?_⟩
    funext c
    cases c <;> rfl
  · exact hx.getElem? (e₂.before.trans (b₃.trans hR))
  · exact hlen ▸ e₂.passes (b₃.trans hR)

namespace Shape

variable (hsub : Performs o R t symbols W sub)
include hsub

/-! ## Endless loops -/

/-- A round of an endless loop. -/
theorem EndlessRoundOf.follows {c : ContextId} (hin : W.In .plain path s)
    (hk : s.kind = .loop c true) (hp : ∀ p ∈ path, s.id ≠ p.id)
    (hc : s.isConfined targets.isSome = true) (hr : r.Led) (ha : Bound r actives)
    (h : EndlessRoundOf sub path s start stop actives r r') :
    Grown path r r' ∧ (r'.Before R → R.kinds[r.kinds.length]? = some (.label start) ∧
      ∀ n, Follows o R symbols (some (leads start stop)) n (runBody o t symbols s n)
        (r.kinds.length + 1) fun _ => r'.kinds.length) := by
  obtain ⟨r₁, symmetry, r₂, b, bs, x?, r₃, h₁, h₂, hb, h₃, h₄⟩ := h
  have hbody : W.Placed (some (leads start stop)) (s :: path) s.bodyOn := fun b hb =>
    ⟨.part hin (body_place hb), isConfined_forever hc hk (mem_parts (body_place hb))⟩
  have e₁ := entered (by simp [hk, NodeKind.isLoop]) hp hr ha h₁ h₂
  have e₂ (n : Nat) := body_performed (n := n) hsub hbody e₁.aimed hb h₃
  have b₃ := e₁.grown.before.trans (e₂ 0).grown.before
  have e₃ (n : Nat) := (e₂ n).ahead
    (.closeSymmetry h₄ b₃.led fun b hb => b₃.leader (ha b hb))
  have hg := (e₃ 0).grown
  refine ⟨e₁.grown.trans (hg.mono (List.subset_cons_self _ _)), fun hR => ?_⟩
  have hR₂ := hg.before.trans hR
  exact ⟨e₁.label hR₂, fun n => .behind (e₁.passes hR₂) ((e₃ n).follows hR)⟩

/-- **An endless loop.** -/
theorem ForeverOf.performed (hks : Labelled R.kinds) {c : ContextId} (hin : W.In .plain path s)
    (hk : s.kind = .loop c true) (hp : ∀ p ∈ path, s.id ≠ p.id)
    (hc : s.isConfined targets.isSome = true) (hr : r.Led) (h : ForeverOf sub path s r r') :
    Performed o R symbols targets path n
      (Exec.rounds (fun n => runBody o t symbols s n) (fun _ => pure true) n) r r' := by
  obtain ⟨r₁, save, r₂, r₃, r₄, r₅, r₆, j, h₁, h₂, h₃, h₄, h₅, h₆, h₇⟩ := h
  have e₁ : Silent r r₁ := .prepared (h₁ []) hr (by simp)
  have e₂ : Silent r r₂ := e₁.trans (.plain h₂ e₁.led rfl rfl)
  have g₂ : Grown path r₂ { r₂ with labels := r₂.labels + 2 } :=
    .context e₂.led _ _ _ (Nat.le_add_right _ 2)
  have e₃ : Silent { r₂ with labels := r₂.labels + 2 } r₃ := .label h₃ g₂.led
  have g₂ : Grown path r₂ r₃ := g₂.trans e₃.grown
  have g₃ : Grown path r₃ { r₃ with
      labels := r₃.labels + 1
      regions := ⟨r₃.bindings, none⟩ :: r₃.regions } := .context e₃.led _ _ _ (Nat.le_succ _)
  obtain ⟨g₄, e₄⟩ := EndlessRoundOf.follows (o := o) (R := R) hsub hin hk hp hc g₃.led
    (fun b hb => e₃.led.bindings b hb) h₄
  have g₃ : Grown path r₃ r₄ := g₃.trans g₄
  have g₅ : Grown path r₄ { r₄ with regions := r₄.regions.tail } :=
    .context g₄.led _ _ _ (Nat.le_refl _)
  obtain ⟨x, hx⟩ := appendJump_appended h₅
  have g₅ : Grown path r₄ r₅ := g₅.trans (hx.grown (jump_onward h₅ g₅.led))
  have e₆ : Silent r₅ r₆ := .plain h₆ g₅.led rfl rfl
  obtain ⟨y, hy⟩ := appendLabel_appended h₇
  have e₇ : Silent r₆ r' := .label h₇ e₆.led
  have g₇ : Grown path r₅ r' := (e₆.trans e₇).grown
  refine ⟨e₂.grown.trans (g₂.trans (g₃.trans (g₅.trans g₇))), fun hR => ?_⟩
  have hR₅ := g₇.before.trans hR
  have hR₄ := g₅.before.trans hR₅
  have hR₃ := g₃.before.trans hR₄
  obtain ⟨hlabel, hround⟩ := e₄ hR₄
  have hstart := hks.landing_eq hlabel
  have hstop := hks.landing_eq (hy.getElem? hR)
  refine .behind ((e₂.passes (g₂.before.trans hR₃)).trans (e₃.passes hR₃)) (.rounds
    (fun g => reaches_silent hlabel rfl) hround (fun n => .pure fun g =>
      ⟨1, hstart ▸ hks.reaches_landing (hx.getElem? hR₅) rfl⟩) hstart ?_)
  exact .trans (.of_eq hstop) (e₇.passes hR)

/-! ## Loops with a condition -/

omit hsub in
/-- What is below a loop with a condition: its initialization, the scope of its condition, and what
its rounds do. -/
theorem In.pretested {c : ContextId} {d : Shape} (hin : W.In .plain path s)
    (hk : s.kind = .loop c false) (hc : s.isConfined targets.isSome = true)
    (hd : s.scope? = some d) : ∃ a cs, s.parts = a :: d :: cs ∧
      (W.In .plain (s :: path) a ∧ a.isConfined false = true) ∧ d.isConfined false = true ∧
      ∀ f, W.Placed (some f) (s :: path) cs := by
  obtain ⟨a, cs, hp⟩ : ∃ a cs, s.parts = a :: d :: cs := by
    simp only [scope?, hk] at hd
    generalize s.parts = ps at hd
    rcases ps with _ | ⟨a, _ | ⟨b, cs⟩⟩ <;> simp_all
  obtain ⟨ha, hd, hcs⟩ := isConfined_pretested hc hk hp
  have hplaces : s.places .plain = (.plain, a) :: (.scope, d) :: cs.map (.plain, ·) := by
    simp [places, placesOf, hk, hp]
  exact ⟨a, cs, hp, ⟨.part hin (by simp [hplaces]), ha⟩, hd, fun f b hb =>
    ⟨.part hin (by simp [hplaces, hb]), hcs b hb⟩⟩

variable (hW : W.Numbered) (hf : W.Formed) (hks : Labelled R.kinds)
include hW hf hks

/-- A round of a loop with a condition, and the test behind it. -/
theorem RoundOf.follows {c : ContextId} (hin : W.In .plain path s) (hk : s.kind = .loop c false)
    (hp : ∀ p ∈ path, s.id ≠ p.id) (hc : s.isConfined targets.isSome = true) (hr : r.Led)
    (ha : Bound r actives) (hstart : start < r.labels)
    (h : RoundOf t symbols sub path s start stop actives r r') :
    Grown path r r' ∧ (r'.Before R → R.kinds[r.kinds.length]? = some (.label start) ∧ ∃ test,
      (∀ n, Follows o R symbols (some (leads start stop)) n (do
        runBody o t symbols s n
        runFirst o t symbols (s.parts.drop 2) n) (r.kinds.length + 1) fun _ => test) ∧
      ∀ n, Follows o R symbols none n (holds o t symbols s n) test
        fun b => if b then landing R.kinds start else r'.kinds.length) := by
  obtain ⟨r₁, symmetry, r₂, b, bs, x?, r₃, r₄, r₅, r₆, h₁, h₂, hb, h₃, h₄, h₅, h₆, h₇⟩ := h
  have ⟨d, _, _, _, hd, _⟩ := h₆
  obtain ⟨a, cs, hparts, -, hconf, hplaced⟩ := In.pretested hin hk hc hd
  have hplaced := hplaced (leads start stop)
  have hdrop : s.parts.drop 2 = cs := by simp [hparts]
  have hbody : W.Placed (some (leads start stop)) (s :: path) s.bodyOn := fun b hb =>
    hplaced b (List.mem_of_mem_drop (i := 1) (by simpa [bodyOn, hk, hparts] using hb))
  rw [hdrop] at h₄ ⊢
  -- the body, the action, and the values that go back to where they were
  have e₁ := entered (by simp [hk, NodeKind.isLoop]) hp hr ha h₁ h₂
  have e₂ (n : Nat) := body_performed (n := n) hsub hbody e₁.aimed hb h₃
  have e₃ (n : Nat) : Performed o R symbols _ (s :: path) n _ r₂ r₄ :=
    (e₂ n).bind (f := fun _ => runFirst o t symbols cs n) <| FirstPart.performed hsub
      (fun a as he => by
        subst he
        exact ⟨hplaced.head, hplaced.tail.followers⟩) (e₁.aimed.grown (e₂ 0).grown) h₄
  have b₄ := e₁.grown.before.trans (e₃ 0).grown.before
  have e₅ : Silent r₄ r₅ := .closeSymmetry h₅ b₄.led fun b hb => b₄.leader (ha b hb)
  have e₃ (n : Nat) := (e₃ n).ahead e₅
  have g₃ := (e₃ 0).grown
  -- the test
  have hstart₅ : start < r₅.labels :=
    Nat.lt_of_lt_of_le hstart (Nat.le_trans e₁.grown.labels g₃.labels)
  have hnone : Aimed none (s :: path) r₅ := .none e₅.led
  obtain ⟨l, hl, e₄⟩ := TestOf.traced hsub hW hf hks hin
    (fun c hc => by cases hd.symm.trans hc; exact hconf) hnone
    (fun l hl => ⟨Nat.lt_succ_of_lt (Nat.lt_of_lt_of_le hstart₅ hl), Nat.lt_succ_self l⟩) h₆
  have b₆ := (b₄.trans e₅.before).trans (e₄ 0).grown.before
  have e₆ : Silent r₆ r' :=
    .prepared (keepAlive_prepared (fun _ h => h) h₇) b₆.led fun b hb => b₆.leader (ha b hb)
  have g₄ := (e₄ 0).grown.trans e₆.grown
  refine ⟨e₁.grown.trans ((g₃.trans g₄).mono (List.subset_cons_self _ _)), fun hR => ?_⟩
  have hR₅ := g₄.before.trans hR
  have hR₂ := g₃.before.trans hR₅
  refine ⟨e₁.label hR₂, r₅.kinds.length, fun n =>
    .behind (e₁.passes hR₂) ((e₃ n).follows hR₅), fun n => ?_⟩
  refine .ahead ((e₄ n).follows (e₆.before.trans hR)) fun b => ?_
  have hne : start ≠ l := Nat.ne_of_lt (Nat.lt_of_lt_of_le hstart₅ hl)
  cases b with
  | true =>
    simp only [outcome, if_true, hne, if_false, arrival]
    exact .refl
  | false =>
    simp only [outcome, Bool.false_eq_true, if_false, if_true, arrival]
    exact e₆.passes hR

/-- What is ahead of the rounds of a loop with a condition: its initialization and the first test. -/
theorem ahead_traced {c : ContextId} (hin : W.In .plain path s) (hk : s.kind = .loop c false)
    (hc : s.isConfined targets.isSome = true) (hr : r.Led) {stop : Label} (hstop : stop < r.labels)
    (h₁ : FirstPart sub (s :: path) s.parts r r₁) (h₂ : Prepared [] r₁ r₂)
    (h₃ : TestOf t symbols sub path s (fun enter => (enter, stop, enter)) r₂ r₃) :
    Traced o R symbols none (s :: path) n (do
      runFirst o t symbols s.parts n
      holds o t symbols s n) r r₃
        fun b => if b then r₃.kinds.length else landing R.kinds stop := by
  have ⟨d, _, _, _, hd, _⟩ := h₃
  obtain ⟨a, cs, hparts, ha, hconf, -⟩ := In.pretested hin hk hc hd
  obtain ⟨k, hdk⟩ := hf.scope (.part hin (scope_place hd))
  have hfollowers : followers a.kind (d :: cs) = [] := by
    simp [followers, hdk, NodeKind.isAlternative]
  have e₁ : Performed o R symbols none (s :: path) n (runFirst o t symbols s.parts n) r r₁ :=
    FirstPart.performed hsub (fun a' as he => by
      obtain ⟨rfl, rfl⟩ := List.cons.inj (hparts.symm.trans he)
      exact ⟨ha, hfollowers ▸ .nil⟩) (.none hr) h₁
  have e₂ := e₁.ahead (.prepared h₂ e₁.grown.led (by simp))
  have hnone : Aimed none (s :: path) r₂ := .none e₂.grown.led
  exact e₂.bind <| TestOf.ahead hsub hW hf hks hin
    (fun c hc => by cases hd.symm.trans hc; exact hconf) hnone
    (Nat.lt_of_lt_of_le hstop e₂.grown.labels) h₃

/-- **A loop with a condition.** -/
theorem PretestedOf.performed {c : ContextId} (hin : W.In .plain path s)
    (hk : s.kind = .loop c false) (hp : ∀ p ∈ path, s.id ≠ p.id)
    (hc : s.isConfined targets.isSome = true) (hr : r.Led)
    (h : PretestedOf t symbols sub path s r r') :
    Performed o R symbols targets path n (do
      runFirst o t symbols s.parts n
      if ← holds o t symbols s n then
        Exec.rounds (fun n => do
          runBody o t symbols s n
          runFirst o t symbols (s.parts.drop 2) n) (fun n => holds o t symbols s n) n) r r' := by
  obtain ⟨r₁, r₂, r₃, save, r₄, r₅, r₆, j, h₁, h₂, h₃, h₄, h₅, h₆, h₇⟩ := h
  have g₀ : Grown (s :: path) r { r with labels := r.labels + 2 } :=
    .context hr _ _ _ (Nat.le_add_right _ 2)
  have e₃ := ahead_traced (o := o) (n := n) hsub hW hf hks hin hk hc g₀.led
    (Nat.lt_succ_self (r.labels + 1)) h₁ (h₂ []) h₃
  have e₄ : Silent r₃ r₄ := .plain h₄ e₃.grown.led rfl rfl
  have g₄ : Grown path r r₄ :=
    (g₀.trans (e₃.grown.trans e₄.grown)).mono (List.subset_cons_self s path)
  have hstart : r.labels < r₄.labels :=
    Nat.lt_of_succ_lt (Nat.le_trans e₃.grown.labels (Nat.le_of_eq e₄.labels.symm))
  -- the rounds
  have g₅ : Grown path r₄ { r₄ with regions := ⟨r₄.bindings, none⟩ :: r₄.regions } :=
    .context g₄.led _ _ _ (Nat.le_refl _)
  obtain ⟨g₅', e₅⟩ := RoundOf.follows (o := o) hsub hW hf hks hin hk hp hc g₅.led
    (fun b hb => g₄.led.bindings b hb) hstart h₅
  have g₅ : Grown path r₄ r₅ := g₅.trans g₅'
  -- behind the rounds
  have e₆ : Silent r₅ { r₅ with regions := r₅.regions.tail } := .context g₅.led _ _ _
  obtain ⟨y, hy⟩ := appendLabel_appended h₆
  have e₆ : Silent r₅ r₆ := e₆.trans (.label h₆ e₆.led)
  have e₇ : Silent r₆ r' := .plain h₇ e₆.led rfl rfl
  have g₆ : Grown path r₅ r' := (e₆.trans e₇).grown
  refine ⟨g₄.trans (g₅.trans g₆), fun hR => ?_⟩
  have hR₅ := g₆.before.trans hR
  have hR₄ := g₅.before.trans hR₅
  obtain ⟨hlabel, test, hround, hagain⟩ := e₅ hR₅
  have hstart := hks.landing_eq hlabel
  have hstop := hks.landing_eq (hy.getElem? (e₇.before.trans hR))
  have hend : Passes o R.kinds r₅.kinds.length r'.kinds.length := (e₆.trans e₇).passes hR
  rw [← bind_assoc]
  refine .bind (e₃.of_none.follows (e₄.before.trans hR₄)) fun b => ?_
  cases b with
  | true =>
    have hagain (n : Nat) : Follows o R symbols none n (holds o t symbols s n) test
        fun b => if b then r₄.kinds.length else r₅.kinds.length := hstart ▸ hagain n
    exact .behind (e₄.passes hR₄) (.ahead (.rounds (fun g => reaches_silent hlabel rfl) hround
      hagain hstart (.of_eq hstop)) fun _ => hend)
  | false => exact .pure (.trans (.of_eq hstop) hend)

end Shape

end Codegen
