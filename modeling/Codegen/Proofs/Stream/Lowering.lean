import Codegen.Proofs.Instruction.Jump
import Codegen.Proofs.Lowering.Parts
import Codegen.Proofs.Stream.Open

/-!
# Lowering keeps streams closed

Whatever is lowered, the stream is as closed behind it as it was before. The argument follows the
depth of the lowering: each construct closes what it opened, provided that its parts do.

* `Generating.Keeps`: a lowering that leaves streams as closed as before;
* `bracketed_open`, `conditioned_open`, `branched_open`, ...: the constructs;
* `lower_keeps`: **lowering leaves streams as closed as before**.
-/

namespace Codegen.Generating

variable {c : Surroundings} {n : NodeId} {r r' : Routine} {u : Unit} {lower : Lowering}
variable {x y z : ValueId} {actives : List Binding}

/-- The lowering of any node leaves streams as closed as before. -/
def Keeps (lower : Lowering) : Prop :=
  ∀ {c : Surroundings} {n : NodeId} {r r' : Routine} {x? : Option ValueId},
    Takes (lower n) r x? r' → Open c r → Open c r'

theorem marker_plain {k : InstructionKind} {i : Nat} (hk : k.isPlain = true)
    (h : Takes (appendMarker k) r i r') (ho : Open c r) : Open c r' := by
  obtain ⟨-, x, hx⟩ := appendMarker_appended h
  exact ho.plain hk hx

theorem append_plain {k : InstructionKind} {f : Format} (hk : k.isPlain = true)
    (h : Takes (append k f) r x r') (ho : Open c r) : Open c r' :=
  ho.plain hk (append_appended h)

theorem marker_known {k : InstructionKind} {i : Nat} (h : Takes (appendMarker k) r i r') :
    r'.kinds[i]? = some k := by
  obtain ⟨rfl, x, hx⟩ := appendMarker_appended h
  simp [hx.kinds]

/-! ## Around regions -/

theorem prepared_open (h : Prepared actives r r') (ho : Open c r) : Open c r' := by
  induction h with
  | refl => exact ho
  | cache _ _ ha ih => exact append_plain rfl ha ih
  | keep _ _ ha ih => exact append_plain rfl ha ih
  | copy _ _ ha hb ih => exact (append_plain rfl ha ih).bind hb
  | fresh _ hc hb _ ih => exact (ih.create hc).bind hb

theorem bracketed_open {step : Routine → Routine → Prop}
    (hf : ∀ {c r r'}, step r r' → Open c r → Open c r') (h : Bracketed step r r')
    (ho : Open c r) : Open c r' := by
  obtain ⟨save, r₁, enter, r₂, r₃, i, r₄, j, hs, he, hm, hx, hj⟩ := h
  have h₁ := (marker_plain rfl hs ho).rebase
  obtain ⟨henter, _, he⟩ := appendMarker_appended he
  have h₂ := h₁.enter he
  have h₃ := hf hm (h₂.withRegions _)
  have hregions : r₃.regions.tail = c.regions := by
    rw [h₃.regions]
    exact h₂.regions
  obtain ⟨-, _, hx⟩ := appendMarker_appended hx
  have h₄ : Open { c with base := r₁.kinds } r₄ := by
    refine Open.merge ?_ hx
    have h₃' := h₃.withRegions r₃.regions.tail
    rw [hregions] at h₃' ⊢
    exact henter ▸ h₃'
  obtain ⟨-, _, hj⟩ := appendMarker_appended hj
  have h₅ : Open { c with base := r₁.kinds } { r₄ with bindings := r.bindings } :=
    h₄.congr rfl rfl rfl rfl rfl
  have h₆ := h₅.restore (marker_known hs) hj
  exact h₆.weaken (marker_plain rfl hs ho).base (fun _ => .inr) (List.Subperm.refl _) rfl rfl

/-! ## Nodes in order -/

theorem lowersEach_open (hl : Keeps lower) {ns : List NodeId} (h : LowersEach lower ns r r')
    (ho : Open c r) : Open c r' := by
  induction h with
  | nil => exact ho
  | cons h _ ih => exact ih (hl h ho)

theorem lowersAll_open (hl : Keeps lower) {ns : List NodeId} {xs : List ValueId}
    (h : LowersAll lower ns r xs r') (ho : Open c r) : Open c r' := by
  induction h with
  | nil => exact ho
  | cons h _ ih => exact ih (hl h ho)

theorem stated_open (hl : Keeps lower) {ns : List NodeId} {x? y? : Option ValueId}
    (h : Stated lower x? ns r y? r') (ho : Open c r) : Open c r' := by
  induction h with
  | nil => exact ho
  | skip _ _ ih => exact ih ho
  | cons _ h _ ih => exact ih (hl h ho)

/-! ## Expressions -/

theorem combined_open {o : Operator} (h : Combined o x y r z r') (ho : Open c r) : Open c r' := by
  cases h with
  | first _ hr => exact hr ▸ ho
  | constant h => exact ho.create h
  | instruction hk h =>
    exact append_plain (by cases isArithmetic_of_arithmetic? hk <;> rfl) h ho

theorem copied_open (h : Copied x r y r') (ho : Open c r) : Open c r' := by
  rcases h with ⟨-, rfl⟩ | ⟨f, h⟩
  · exact ho
  · exact append_plain rfl h ho

theorem lowerArithmetic_open (hl : Keeps lower) {o : Operator}
    (h : Takes (lowerArithmetic lower n o) r z r') (ho : Open c r) : Open c r' := by
  obtain ⟨left, right, x, y, r₁, r₂, -, -, h₁, h₂, h₃⟩ := lowerArithmetic_parts h
  have ho₂ := hl h₂ (hl h₁ ho)
  exact h₃.elim (combined_open · ho₂) fun h => combined_open h.2 ho₂

theorem lowerAssignment_open (hl : Keeps lower) (h : Takes (lowerAssignment lower n) r z r')
    (ho : Open c r) : Open c r' := by
  obtain ⟨destination, source, -, -, h⟩ := lowerAssignment_parts h
  rcases h with ⟨v, x, r₁, r₂, -, h₁, h₂, h₃⟩ | ⟨x, r₁, r₂, f, w, -, h₁, h₂, h₃⟩
  · exact (copied_open h₂ (hl h₁ ho)).bind h₃
  · exact append_plain rfl h₃ (hl h₂ (hl h₁ ho))

theorem valueOf_open {v : VariableId} (h : Takes (valueOf v) r x r') (ho : Open c r) :
    Open c r' := by
  rcases valueOf_cases h with ⟨-, rfl⟩ | h
  · exact ho
  · have hp : Prepared [] r r' := bindToSlot_prepared .refl h
    exact prepared_open hp ho

theorem lowerCall_open (hl : Keeps lower) {f : FunctionId}
    (h : Takes (lowerCall lower n f) r z r') (ho : Open c r) : Open c r' := by
  obtain ⟨xs, r₁, w, r₂, symbol, k, h₁, h₂, -, h₃⟩ := lowerCall_parts h
  exact (lowersAll_open hl h₁ ho).call (append_appended h₂) (append_appended h₃)

theorem lowerReturn_open (hl : Keeps lower) (h : Takes (lowerReturn lower n) r u r')
    (ho : Open c r) : Open c r' := by
  rcases lowerReturn_parts h with ⟨-, w, h⟩ | ⟨child, x, y, r₁, r₂, w, -, h₁, h₂, h₃⟩
  · exact append_plain rfl h ho
  · exact append_plain rfl h₃ (copied_open h₂ (hl h₁ ho))

/-! ## Conditions -/

theorem compareWithZero_open {m : NodeId} (h : Takes (compareWithZero n) r m r') (ho : Open c r) :
    Open c r' := by
  obtain ⟨format, -, -, rfl⟩ := compareWithZero_parts h
  generalize r.tree.comparedWithZero n (zeroOf format) = t
  exact ho.congr rfl rfl rfl rfl rfl

/-- The steps of a condition define fresh labels, and jump only to them and to the two outcomes. -/
theorem conditioned_open {success failure : Label} {steps : List Step}
    (h : Conditioned n success failure r steps r') (ho : Open c r) :
    Open { c with reserved := Step.labels steps ++ c.reserved } r' ∧
      Step.Closed [success, failure] steps := by
  have compared {n o r steps} {success failure : Label}
      (h : Compared n o success failure r steps) :
      Step.labels steps = [] ∧ Step.Closed [success, failure] steps := by
    obtain ⟨left, right, comparison, signed, -, -, -, -, -, rfl⟩ := h
    simp [Step.Closed]
  induction h generalizing c with
  | @logical n left right o success failure r r₂ r' first second _ _ _ _ _ _ _ ihl ihr =>
    obtain ⟨h₁, c₁⟩ := ihl ho.newLabel
    obtain ⟨h₂, c₂⟩ := ihr h₁
    refine ⟨h₂.weaken List.prefix_rfl (fun _ => .inr) ?_ rfl rfl, ?_⟩
    · refine List.Perm.subperm ?_
      simp only [Step.labels_append, Step.labels_cons_label]
      grind
    · intro l hl
      simp only [Step.targets_append, Step.targets_cons_label, List.mem_append] at hl
      simp only [Step.labels_append, Step.labels_cons_label, List.mem_append, List.mem_cons]
      rcases hl with hl | hl
      · have := c₁ l hl
        grind
      · have := c₂ l hl
        grind
  | comparison _ _ _ hc =>
    obtain ⟨h1, h2⟩ := compared hc
    rw [h1]
    exact ⟨ho, h2⟩
  | nonzero _ _ hz hc =>
    obtain ⟨h1, h2⟩ := compared hc
    rw [h1]
    exact ⟨compareWithZero_open hz ho, h2⟩
  | parenthesis _ _ _ ih => exact ih ho

theorem appendComparison_open (hl : Keeps lower) {left right : NodeId}
    (h : Takes (appendComparison lower left right) r u r') (ho : Open c r) : Open c r' := by
  refine bracketed_open ?_ (appendComparison_bracketed h) ho
  intro c r r' h ho
  obtain ⟨x, r₁, y, r₂, w, hx, hy, hw⟩ := h
  exact append_plain rfl hw (hl hy (hl hx ho))

theorem appendSteps_open (hl : Keeps lower) {steps : List Step}
    (h : Takes (steps.forM (appendStep lower)) r u r')
    (ho : Open { c with
      reserved := Step.labels steps ++ c.reserved
      pending := Step.labels steps ++ c.pending } r)
    (ht : ∀ l ∈ Step.targets steps,
      l ∈ Step.labels steps ∨ l ∈ c.pending ∨ l ∈ c.base.filterMap (·.label?)) : Open c r' := by
  induction steps generalizing c r u with
  | nil =>
    obtain ⟨-, rfl⟩ := takes_pure.mp h
    exact ho
  | cons s rest ih =>
    obtain ⟨_, r₁, h₁, h₂⟩ := takes_bind.mp h
    cases s with
    | compare left right => exact ih h₂ (appendComparison_open hl h₁ ho) ht
    | jump l test =>
      obtain ⟨_, h₁⟩ := appendJump_appended h₁
      simp only [Step.targets_cons_jump, List.forall_mem_cons, Step.labels_cons_jump] at ht ho
      refine ih h₂ (ho.jump ?_ h₁) ht.2
      rcases ht.1 with hl | hl | hl
      · exact .inr (List.mem_append_left _ hl)
      · exact .inr (List.mem_append_right _ hl)
      · exact .inl (ho.defined_of_base hl)
    | label l =>
      obtain ⟨_, h₁⟩ := appendLabel_appended h₁
      have ho₁ : Open { c with
          reserved := Step.labels rest ++ c.reserved
          pending := Step.labels rest ++ c.pending } r₁ := Open.label ho h₁
      -- the label is known to be defined from here on
      have ho' : Open { c with base := r₁.kinds } r' := by
        refine ih h₂ ho₁.rebase fun m hm => ?_
        rcases ht m hm with hm | hm | hm
        · rcases List.mem_cons.mp hm with rfl | hm
          · exact .inr (.inr (by simp [h₁.kinds, InstructionKind.label?]))
          · exact .inl hm
        · exact .inr (.inl hm)
        · exact .inr (.inr (ho₁.defined_of_base hm))
      exact ho'.weaken ho₁.base (fun _ => .inr) (List.Subperm.refl _) rfl rfl

theorem lowerCondition_open (hl : Keeps lower) {success failure next : Label}
    (h : Takes (lowerCondition lower n success failure (some next)) r u r')
    (ho : Open { c with reserved := next :: c.reserved } r)
    (hs : success = next ∨ success ∈ c.pending) (hf : failure = next ∨ failure ∈ c.pending) :
    Open c r' := by
  obtain ⟨steps, r₁, hsteps, h⟩ := lowerCondition_parts h
  obtain ⟨ho₁, hclosed⟩ := conditioned_open hsteps ho
  have hlabels := Step.labels_simplify (steps ++ [.label next])
  simp only [Step.labels_append, Step.labels_cons_label, Step.labels_nil] at hlabels
  have hclosed' : Step.Closed c.pending (steps ++ [.label next]) := by
    intro l hl
    simp only [Step.targets_append, Step.targets_cons_label, Step.targets_nil, List.append_nil,
      Step.labels_append, Step.labels_cons_label, Step.labels_nil, List.mem_append,
      List.mem_singleton] at hl ⊢
    rcases hclosed l hl with hl | hl
    · exact .inl (.inl hl)
    · simp only [List.mem_cons, List.not_mem_nil, or_false] at hl
      rcases hl with rfl | rfl
      · exact hs.imp_left .inr
      · exact hf.imp_left .inr
  refine appendSteps_open hl h (ho₁.weaken List.prefix_rfl ?_ ?_ rfl rfl) fun l hl =>
    (Step.closed_simplify hclosed' l hl).imp_right .inl
  · exact fun l hl => .inr (List.mem_append_right _ hl)
  · have := (hlabels.append_right c.reserved).subperm
    simpa using this

/-! ## Branches -/

theorem lowerBranchTest_open (hl : Keeps lower) {failure : Label}
    (h : Takes (lowerBranchTest lower n failure) r u r') (hf : failure ∈ c.pending)
    (ho : Open c r) : Open c r' := by
  obtain ⟨r₁, test, h₁, -, h₂⟩ := lowerBranchTest_parts h
  exact lowerCondition_open hl h₂ (lowersEach_open hl h₁ ho).newLabel (.inl rfl) (.inr hf)

theorem lowerBranchBody_open (hl : Keeps lower) (h : Takes (lowerBranchBody lower n) r u r')
    (ho : Open c r) : Open c r' := by
  obtain ⟨body, r₁, -, h₁, h₂⟩ := lowerBranchBody_parts h
  refine prepared_open (keepUsedLater_prepared h₂) (bracketed_open ?_ h₁ ho)
  intro c r r' h ho
  obtain ⟨x?, h⟩ := h
  exact hl h ho

theorem tested_open (hl : Keeps lower) {next : Label} (h : Tested lower n next r r')
    (hn : next ∈ c.pending) (ho : Open c r) : Open c r' := by
  rcases h with ⟨-, h⟩ | ⟨-, rfl⟩
  · exact lowerBranchTest_open hl h hn ho
  · exact ho

theorem branched_open (hl : Keeps lower) {stop : Label} {ns : List NodeId}
    (h : Branched lower stop ns r r') (hs : stop ∈ c.pending) (ho : Open c r) : Open c r' := by
  induction h with
  | nil => exact ho
  | last ht hb => exact lowerBranchBody_open hl hb (tested_open hl ht hs ho)
  | @cons n m rest r r₁ r₂ r₃ r₄ r' _ _ ht hb hj hx _ ih =>
    -- the next branch is pending until its label follows
    have h₀ : Open { c with reserved := r.labels :: c.reserved, pending := r.labels :: c.pending }
        { r with labels := r.labels + 1 } :=
      ho.newLabel.weaken List.prefix_rfl (fun l hl => .inr (List.mem_cons_of_mem _ hl))
        (List.Subperm.refl _) rfl rfl
    have h₂ := lowerBranchBody_open hl hb (tested_open hl ht List.mem_cons_self h₀)
    obtain ⟨_, hj⟩ := appendJump_appended hj
    obtain ⟨_, hx⟩ := appendLabel_appended hx
    exact ih (Open.label (h₂.jump (.inr (List.mem_cons_of_mem _ hs)) hj) hx)

theorem lowerChain_open (hl : Keeps lower) (h : Takes (lowerChain lower n) r u r')
    (ho : Open c r) : Open c r' := by
  obtain ⟨r₁, i, r₂, r₃, h₁, h₂, h₃, h₄⟩ := lowerChain_parts h
  have ho₂ := (marker_plain rfl h₂ (prepared_open (h₁ []) ho)).newLabel
  have ho₃ : Open { c with
      reserved := r₂.labels :: c.reserved
      pending := r₂.labels :: c.pending } r₃ := by
    refine branched_open hl h₃ List.mem_cons_self (ho₂.weaken List.prefix_rfl ?_ ?_ rfl rfl)
    · exact fun l hl => .inr (List.mem_cons_of_mem _ hl)
    · exact List.Subperm.refl _
  obtain ⟨_, h₄⟩ := appendLabel_appended h₄
  exact Open.label ho₃ h₄

/-! ## Loops -/

theorem forM_bind_open {bs : List Binding} (h : Takes (bs.forM fun b => bind b.1 b.2) r u r')
    (ho : Open c r) : Open c r' :=
  takes_forM (fun _ r => Open c r) h ho fun _ _ _ _ _ _ h ho => ho.bind h

theorem openSymmetry_open {start exit : Label} {symmetry : Nat}
    (h : Takes (openSymmetry n start exit actives) r symmetry r')
    (hs : start ∈ c.pending) (he : exit ∈ c.pending) (ho : Open c r) :
    Open c r' ∧ r'.kinds[symmetry]? = some (.symmetryStart n actives) := by
  obtain ⟨r₁, h₁, rfl⟩ := openSymmetry_parts h
  have hknown := marker_known h₁
  exact ⟨(marker_plain rfl h₁ ho).register hknown (.inr hs) (.inr he), hknown⟩

theorem closeSymmetry_open {symmetry : Nat} (h : Takes (closeSymmetry symmetry actives) r u r')
    (hs : ∃ n bs, r.kinds[symmetry]? = some (.symmetryStart n bs)) (ho : Open c r) :
    Open c r' := by
  obtain ⟨i, r₁, h₁, h₂⟩ := closeSymmetry_parts h
  obtain ⟨-, _, h₁⟩ := appendMarker_appended h₁
  exact forM_bind_open h₂ (ho.endRound hs h₁)

theorem entersLoop_open (hl : Keeps lower) {stop : Label} (h : EntersLoop lower n stop r r')
    (hs : stop ∈ c.pending) (ho : Open c r) : Open c r' := by
  obtain ⟨r₁, r₂, r₃, test, h₁, h₂, h₃, -, h₄⟩ := h
  have ho₃ := lowersEach_open hl h₃ (prepared_open (h₂ []) (lowersEach_open hl h₁ ho))
  exact lowerCondition_open hl h₄ ho₃.newLabel (.inl rfl) (.inr hs)

theorem loopRound_open (hl : Keeps lower) {start stop : Label}
    (h : LoopRound lower n start stop actives r r') (hs : stop ∈ c.pending)
    (ho : Open { c with reserved := start :: c.reserved, pending := start :: c.pending } r) :
    Open c r' := by
  obtain ⟨r₁, symmetry, r₂, body, x?, r₃, r₄, r₅, r₆, test, r₇, h₁, h₂, -, h₃, h₄, h₅, h₆, -, h₇,
    h₈⟩ := h
  obtain ⟨_, h₁⟩ := appendLabel_appended h₁
  have ho₁ : Open c r₁ := Open.label ho h₁
  have hstart : start ∈ r₁.defined := by simp [Routine.defined, h₁.kinds, InstructionKind.label?]
  -- within the round its start counts as pending, and what came before it as known
  have ho₁' : Open { c with base := r₁.kinds, pending := start :: c.pending } r₁ :=
    ho₁.rebase.weaken List.prefix_rfl (fun l hl => .inr (List.mem_cons_of_mem _ hl))
      (List.Subperm.refl _) rfl rfl
  obtain ⟨ho₂, hsymmetry⟩ :=
    openSymmetry_open h₂ List.mem_cons_self (List.mem_cons_of_mem _ hs) ho₁'
  have ho₄ := lowersEach_open hl h₄ (hl h₃ ho₂.rebase)
  have ho₆ := lowersEach_open hl h₆ (closeSymmetry_open h₅ ⟨_, _, ho₄.known hsymmetry⟩ ho₄)
  have ho₇ := lowerCondition_open hl h₇ ho₆.newLabel (.inr List.mem_cons_self) (.inl rfl)
  have ho₈ := prepared_open (keepAlive_prepared (fun _ => id) h₈) ho₇
  refine ho₈.weaken (ho₁.base.trans ho₂.base) (fun l hl => ?_) (List.Subperm.refl _) rfl rfl
  rcases List.mem_cons.mp hl with rfl | hl
  · exact .inl (ho₈.defined_of_base ((ho₂.base.filterMap _).subset hstart))
  · exact .inr hl

theorem lowerPretested_open (hl : Keeps lower) (h : Takes (lowerPretested lower n) r u r')
    (ho : Open c r) : Open c r' := by
  obtain ⟨r₁, save, r₂, r₃, r₄, j, h₁, h₂, h₃, h₄, h₅⟩ := lowerPretested_parts h
  have ho₀ : Open { c with
      reserved := (r.labels + 1) :: r.labels :: c.reserved
      pending := (r.labels + 1) :: r.labels :: c.pending } { r with labels := r.labels + 2 } :=
    ho.newLabel.newLabel.weaken List.prefix_rfl
      (fun l hl => .inr (List.mem_cons_of_mem _ (List.mem_cons_of_mem _ hl)))
      (List.Subperm.refl _) rfl rfl
  have ho₂ := marker_plain rfl h₂ (entersLoop_open hl h₁ List.mem_cons_self ho₀)
  have ho₂' := ho₂.rebase.withRegions (⟨r₂.bindings, none⟩ :: r₂.regions)
  have ho₃ := loopRound_open (c := { c with
    base := r₂.kinds
    reserved := (r.labels + 1) :: c.reserved
    pending := (r.labels + 1) :: c.pending
    regions := ⟨r₂.bindings, none⟩ :: r₂.regions }) hl h₃ List.mem_cons_self
    (ho₂'.weaken List.prefix_rfl (fun l hl => .inr ((List.Perm.swap _ _ _).subset hl))
      (List.Perm.swap _ _ _).subperm rfl rfl)
  have hregions : r₃.regions.tail = c.regions := by
    rw [ho₃.regions]
    exact ho₂.regions
  obtain ⟨_, h₄⟩ := appendLabel_appended h₄
  have ho₄ : Open { c with base := r₂.kinds } r₄ := by
    have ho₃' := ho₃.withRegions r₃.regions.tail
    rw [hregions] at ho₃' h₄
    exact Open.label ho₃' h₄
  obtain ⟨-, _, h₅⟩ := appendMarker_appended h₅
  exact (ho₄.restore (marker_known h₂) h₅).weaken ho₂.base (fun _ => .inr)
    (List.Subperm.refl _) rfl rfl

theorem lowerForever_open (hl : Keeps lower) (h : Takes (lowerForever lower n) r u r')
    (ho : Open c r) : Open c r' := by
  obtain ⟨r₁, save, r₂, r₃, r₄, r₅, r₆, j, h₁, h₂, h₃, h₄, h₅, h₆, h₇⟩ := lowerForever_parts h
  have ho₂ := marker_plain rfl h₂ (prepared_open (h₁ []) ho)
  -- the label ahead of the loop is defined at once, the end stays pending
  have ho₂' : Open { c with
      base := r₂.kinds
      reserved := r₂.labels :: (r₂.labels + 1) :: c.reserved
      pending := r₂.labels :: (r₂.labels + 1) :: c.pending } { r₂ with labels := r₂.labels + 2 } :=
    ho₂.rebase.newLabel.newLabel.weaken List.prefix_rfl
      (fun l hl => .inr (List.mem_cons_of_mem _ (List.mem_cons_of_mem _ hl)))
      (List.Perm.swap _ _ _).subperm rfl rfl
  obtain ⟨_, h₃⟩ := appendLabel_appended h₃
  have ho₃ : Open { c with
      base := r₂.kinds
      reserved := (r₂.labels + 1) :: c.reserved
      pending := (r₂.labels + 1) :: c.pending } r₃ := Open.label ho₂' h₃
  obtain ⟨q₁, symmetry, q₂, body, x?, q₃, g₁, g₂, -, g₃, g₄⟩ := h₄
  obtain ⟨_, g₁⟩ := appendLabel_appended g₁
  -- the round inside the region; its label is defined first
  have inside : Open { c with
      base := r₂.kinds
      reserved := r₃.labels :: (r₂.labels + 1) :: c.reserved
      pending := r₃.labels :: (r₂.labels + 1) :: c.pending
      regions := ⟨r₃.bindings, none⟩ :: r₃.regions }
      { r₃ with labels := r₃.labels + 1, regions := ⟨r₃.bindings, none⟩ :: r₃.regions } :=
    (ho₃.newLabel.withRegions _).weaken List.prefix_rfl
      (fun l hl => .inr (List.mem_cons_of_mem _ hl)) (List.Subperm.refl _) rfl rfl
  have hround : r₃.labels ∈ q₁.defined := by
    simp [Routine.defined, g₁.kinds, InstructionKind.label?]
  have hq₁ : Open { c with
      base := r₂.kinds
      reserved := (r₂.labels + 1) :: c.reserved
      pending := (r₂.labels + 1) :: c.pending
      regions := ⟨r₃.bindings, none⟩ :: r₃.regions } q₁ := Open.label inside g₁
  have hq₁' : Open { c with
      base := q₁.kinds
      reserved := (r₂.labels + 1) :: c.reserved
      pending := r₃.labels :: (r₂.labels + 1) :: c.pending
      regions := ⟨r₃.bindings, none⟩ :: r₃.regions } q₁ :=
    hq₁.rebase.weaken List.prefix_rfl (fun l hl => .inr (List.mem_cons_of_mem _ hl))
      (List.Subperm.refl _) rfl rfl
  obtain ⟨hq₂, hsymmetry⟩ :=
    openSymmetry_open g₂ List.mem_cons_self (List.mem_cons_of_mem _ List.mem_cons_self) hq₁'
  have hq₃ := hl g₃ hq₂.rebase
  have hr₄ := closeSymmetry_open g₄ ⟨_, _, hq₃.known hsymmetry⟩ hq₃
  have hround₄ : r₃.labels ∈ r₄.defined :=
    hr₄.defined_of_base ((hq₂.base.filterMap _).subset hround)
  have hregions : r₄.regions.tail = c.regions := by
    rw [hr₄.regions]
    exact ho₃.regions
  have outside : Open { c with
      base := r₂.kinds
      reserved := (r₂.labels + 1) :: c.reserved
      pending := (r₂.labels + 1) :: c.pending } { r₄ with regions := r₄.regions.tail } := by
    refine (hr₄.withRegions r₄.regions.tail).weaken (hq₁.base.trans hq₂.base) (fun l hl => ?_)
      (List.Subperm.refl _) rfl hregions.symm
    rcases List.mem_cons.mp hl with rfl | hl
    · exact .inl hround₄
    · exact .inr hl
  obtain ⟨_, h₅⟩ := appendJump_appended h₅
  obtain ⟨-, _, h₆⟩ := appendMarker_appended h₆
  obtain ⟨_, h₇⟩ := appendLabel_appended h₇
  have ho₆ := (outside.jump (.inl hround₄) h₅).restore (marker_known h₂) h₆
  have ho₇ : Open { c with base := r₂.kinds } r' := Open.label ho₆ h₇
  exact ho₇.weaken ho₂.base (fun _ => .inr) (List.Subperm.refl _) rfl rfl

theorem lowerControl_open {control : LoopControl} (h : Takes (lowerControl n control) r u r')
    (ho : Open c r) : Open c r' := by
  obtain ⟨loop, record, save, r₁, i, r₂, r₃, j, -, hr, h₁, h₂, h₃, h₄⟩ := lowerControl_parts h
  have hsave := marker_known h₁
  have ho₁ := marker_plain rfl h₁ ho
  obtain ⟨-, _, h₁⟩ := appendMarker_appended h₁
  obtain ⟨-, _, h₂⟩ := appendMarker_appended h₂
  obtain ⟨_, h₃⟩ := appendJump_appended h₃
  obtain ⟨-, _, h₄⟩ := appendMarker_appended h₄
  have hmem : (loop, record) ∈ r₁.loops := by
    obtain ⟨before, after, hloops, -⟩ := List.lookup_eq_some_iff.mp hr
    rw [h₁.loops, hloops]
    exact List.mem_append_right _ List.mem_cons_self
  have ho₂ := ho₁.rebase.endRound ⟨_, _, (ho₁.loops _ hmem).1⟩ h₂
  obtain ⟨-, hstart, hexit⟩ := ho₂.loops _ (h₂.loops ▸ hmem)
  have htarget : record.target control ∈ r₂.defined ∨ record.target control ∈ c.pending := by
    cases control
    · exact hexit
    · exact hstart
  exact ((ho₂.jump htarget h₃).restore hsave h₄).weaken ho₁.base (fun _ => .inr)
    (List.Subperm.refl _) rfl rfl

/-! ## All nodes -/

theorem lowerNode_keeps (hl : Keeps lower) : Keeps (lowerNode lower) := by
  intro c n r r' x? h ho
  cases lowerNode_cases h with
  | statements _ h => exact stated_open hl h ho
  | number _ h => exact ho.create h
  | reference _ h => exact valueOf_open h ho
  | arithmetic _ _ h => exact lowerArithmetic_open hl h ho
  | assignment _ _ h => exact lowerAssignment_open hl h ho
  | link _ h =>
    obtain ⟨object, name, v, x, r₁, offset, f, -, -, -, -, h₁, h₂⟩ := lowerLink_parts h
    exact append_plain rfl h₂ (hl h₁ ho)
  | offset _ h =>
    obtain ⟨object, index, x, y, r₁, r₂, f, -, -, h₁, h₂, h₃⟩ := lowerOffset_parts h
    exact append_plain rfl h₃ (hl h₂ (hl h₁ ho))
  | call _ h => exact lowerCall_open hl h ho
  | chain _ h => exact lowerChain_open hl h ho
  | forever _ h => exact lowerForever_open hl h ho
  | pretested _ h => exact lowerPretested_open hl h ho
  | control _ h => exact lowerControl_open h ho
  | ret _ h => exact lowerReturn_open hl h ho
  | stackAddress _ h => exact append_plain rfl h (ho.congr rfl rfl rfl rfl rfl)

theorem lowerWithin_keeps (fuel : Nat) : Keeps (lowerWithin fuel) := by
  induction fuel with
  | zero => exact fun h _ => absurd h not_takes_throw
  | succ fuel ih => exact lowerNode_keeps ih

/-- **Lowering leaves streams as closed as before.** -/
theorem lower_keeps : Keeps Generating.lower := by
  intro c n r r' x? h ho
  simp only [Generating.lower, takes_bind, takes_get] at h
  obtain ⟨_, _, ⟨rfl, rfl⟩, h⟩ := h
  exact lowerWithin_keeps _ h ho

end Codegen.Generating
