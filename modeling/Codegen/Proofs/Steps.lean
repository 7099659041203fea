import Codegen.Lowering.Expression
import Codegen.Proofs.Generating
import Codegen.Proofs.Value.Arena

/-!
# What a step of a generation did

A step that succeeds is taken apart: a sequence succeeds if its parts do, a question leaves the
routine as it is, and a change of values leaves all else. With these equivalences the lowering of a
construct unfolds into the lowering of its parts and the few instructions of its own.

* `Generating.Takes`: **a step that succeeds**;
* `Generating.takes_bind`, `takes_pure`, `takes_get`, ...: the building blocks of steps;
* `Generating.Revalued`: a change of values;
* `Generating.Appended`, `append_appended`: **what appending an instruction does**;
* `Generating.bind_revalued`, `takes_bindToSlot`, `valueOf_cases`: the values of variables;
* `Routine.kinds`: the stream of instructions.
-/

namespace Codegen

/-- The instructions that were appended so far. -/
def Routine.kinds (r : Routine) : List InstructionKind := r.instructions.toList.map (·.kind)

namespace Generating

/-- The step succeeds: it takes a routine to another one, and gives a value. -/
def Takes {α : Type} (g : Generating α) (r : Routine) (a : α) (r' : Routine) : Prop :=
  g r = .ok a r'

variable {α β : Type} {g : Generating α} {f : α → Generating β} {r r' r'' : Routine} {a b : α}
variable {u : Unit} {v : VariableId} {x y : ValueId} {kind : InstructionKind} {format : Format}

/-! ## Building blocks -/

theorem takes_bind {b : β} :
    Takes (g >>= f) r b r'' ↔ ∃ a r', Takes g r a r' ∧ Takes (f a) r' b r'' := by
  unfold Takes
  change EStateM.bind g f r = _ ↔ _
  rw [EStateM.bind]
  cases hg : g r with
  | ok a r₁ =>
    constructor
    · intro h
      exact ⟨a, r₁, rfl, h⟩
    · rintro ⟨a', r₂, h, hf⟩
      cases h
      exact hf
  | error e r₁ => simp

theorem takes_pure : Takes (pure a) r b r' ↔ a = b ∧ r = r' := by
  change EStateM.Result.ok a r = _ ↔ _
  simp

theorem takes_map {k : α → β} {b : β} :
    Takes (k <$> g) r b r' ↔ ∃ a, Takes g r a r' ∧ k a = b := by
  unfold Takes
  change EStateM.map k g r = _ ↔ _
  rw [EStateM.map]
  cases hg : g r with
  | ok a r₁ =>
    constructor
    · intro h
      cases h
      exact ⟨a, rfl, rfl⟩
    · rintro ⟨a', h, rfl⟩
      cases h
      rfl
  | error e r₁ => simp

theorem takes_get {s : Routine} : Takes get r s r' ↔ s = r ∧ r' = r := by
  change EStateM.Result.ok r r = _ ↔ _
  simp [eq_comm]

theorem takes_modify {k : Routine → Routine} : Takes (modify k) r u r' ↔ r' = k r := by
  change EStateM.Result.ok () (k r) = _ ↔ _
  simp [eq_comm]

theorem takes_modifyGet {k : Routine → α × Routine} :
    Takes (modifyGet k) r a r' ↔ a = (k r).1 ∧ r' = (k r).2 := by
  change EStateM.Result.ok (k r).1 (k r).2 = _ ↔ _
  simp [eq_comm]

theorem not_takes_throw {e : Fault} : ¬ Takes (throw e) r a r' := by
  change ¬ EStateM.Result.error _ _ = _
  simp

theorem not_takes_refuse {cause : Inconsistency} : ¬ Takes (refuse cause) r a r' :=
  not_takes_throw

theorem not_takes_unsupported {construct : Unsupported} :
    ¬ Takes (unsupported construct : Generating α) r a r' := by
  simp [unsupported, takes_bind, not_takes_throw]

theorem takes_required {cause : Inconsistency} {o : Option α} :
    Takes (required cause o) r a r' ↔ o = some a ∧ r' = r := by
  cases o with
  | none => simp [required, not_takes_refuse]
  | some a => simp [required, takes_pure, eq_comm]

theorem takes_ask {q : Routine → Except Fault α} :
    Takes (ask q) r a r' ↔ q r = .ok a ∧ r' = r := by
  unfold Takes
  rw [ask]
  cases q r <;> simp [eq_comm]

theorem takes_changeValues {k : Arena → Except Fault Arena} :
    Takes (changeValues k) r u r' ↔
      ∃ values, k r.values = .ok values ∧ r' = { r with values } := by
  unfold Takes
  rw [changeValues]
  cases k r.values <;> simp [eq_comm]

theorem takes_changeRegisters {k : RegisterFile → Except RegisterError RegisterFile} :
    Takes (changeRegisters k) r u r' ↔
      ∃ registers, k r.registers = .ok registers ∧ r' = { r with registers } := by
  unfold Takes
  rw [changeRegisters]
  cases k r.registers <;> simp [eq_comm]

theorem takes_create {h : Handle} :
    Takes (create h format) r x r' ↔
      x = r.values.size ∧ r' = { r with values := (r.values.create h format).2 } :=
  takes_modifyGet

theorem takes_newLabel {l : Label} :
    Takes newLabel r l r' ↔ l = r.labels ∧ r' = { r with labels := r.labels + 1 } :=
  takes_modifyGet

theorem takes_newIdentity {i : String} :
    Takes newIdentity r i r' ↔
      i = r.symbol ++ s!"_S{r.identities}" ∧ r' = { r with identities := r.identities + 1 } :=
  takes_modifyGet

theorem takes_forM {γ : Type} {xs : List γ} {k : γ → Generating Unit}
    (I : List γ → Routine → Prop) (h : Takes (xs.forM k) r u r') (hI : I xs r)
    (hk : ∀ x rest r u r', x ∈ xs → Takes (k x) r u r' → I (x :: rest) r → I rest r') :
    I [] r' := by
  induction xs generalizing r u with
  | nil =>
    obtain ⟨-, rfl⟩ := takes_pure.mp h
    exact hI
  | cons x xs ih =>
    obtain ⟨_, r₁, h₁, h₂⟩ := takes_bind.mp h
    exact ih h₂ (hk x xs r _ r₁ List.mem_cons_self h₁ hI) fun y rest r u r' hy =>
      hk y rest r u r' (List.mem_cons_of_mem _ hy)

/-! ## Questions -/

theorem takes_cellOf {c : Cell} :
    Takes (cellOf x) r c r' ↔ r.values.cell? x = some c ∧ r' = r := by
  rw [cellOf, takes_ask, Arena.cell_eq_ok]

theorem takes_handleOf {h : Handle} :
    Takes (handleOf x) r h r' ↔ (∃ c, r.values.cell? x = some c ∧ c.handle = h) ∧ r' = r := by
  simp only [handleOf, takes_bind, takes_cellOf, takes_pure]
  constructor
  · rintro ⟨c, _, ⟨hc, rfl⟩, hh, rfl⟩
    exact ⟨⟨c, hc, hh⟩, rfl⟩
  · rintro ⟨⟨c, hc, hh⟩, rfl⟩
    exact ⟨c, _, ⟨hc, rfl⟩, hh, rfl⟩

theorem formatOf_keeps {k : Format} (h : Takes (formatOf x) r k r') : r' = r := by
  simp only [formatOf, takes_bind, takes_cellOf, takes_pure] at h
  obtain ⟨c, _, ⟨-, rfl⟩, -, rfl⟩ := h
  rfl

theorem constantOf?_eq {k : Option Number} (h : Takes (constantOf? x) r k r') :
    k = (r.values.handleAt x).constant? := by
  simp only [constantOf?, takes_bind, takes_handleOf, takes_pure] at h
  obtain ⟨_, _, ⟨⟨c, hc, rfl⟩, -⟩, rfl, -⟩ := h
  rw [Arena.handleAt, hc]
  rfl

theorem constantOf?_keeps {k : Option Number} (h : Takes (constantOf? x) r k r') : r' = r := by
  simp only [constantOf?, takes_bind, takes_handleOf, takes_pure] at h
  obtain ⟨c, _, ⟨-, rfl⟩, -, rfl⟩ := h
  rfl

theorem takes_variableOf {i : VariableInfo} :
    Takes (variableOf v) r i r' ↔ r.symbols.variableInfo v = .ok i ∧ r' = r := takes_ask

theorem formatOfType_keeps {t : Option TypeId} {k : Format} (h : Takes (formatOfType t) r k r') :
    r' = r := by
  cases t with
  | none => exact (takes_pure.mp h).2.symm
  | some i =>
    simp only [formatOfType, takes_bind, takes_ask, takes_pure] at h
    obtain ⟨c, _, ⟨-, rfl⟩, -, rfl⟩ := h
    rfl

theorem formatOfVariable_keeps {k : Format} (h : Takes (formatOfVariable v) r k r') :
    r' = r := by
  simp only [formatOfVariable, takes_bind, takes_variableOf] at h
  obtain ⟨i, _, ⟨-, rfl⟩, hf⟩ := h
  exact formatOfType_keeps hf

theorem takes_bound? {o : Option ValueId} :
    Takes (bound? v) r o r' ↔ o = r.bindings.lookup v ∧ r' = r := by
  change EStateM.Result.ok _ _ = _ ↔ _
  simp [eq_comm]

theorem takes_operandsOf {n l k : NodeId} :
    Takes (operandsOf n) r (l, k) r' ↔
      r.tree.first? n = some l ∧ r.tree.last? n = some k ∧ l ≠ k ∧ r' = r := by
  simp only [operandsOf, takes_bind, takes_get]
  constructor
  · rintro ⟨_, _, ⟨rfl, rfl⟩, h⟩
    split at h
    next h1 h2 =>
      split at h
      next hne =>
        obtain ⟨he, rfl⟩ := takes_pure.mp h
        cases he
        exact ⟨h1, h2, hne, rfl⟩
      next => exact absurd h not_takes_refuse
    next => exact absurd h not_takes_refuse
  · rintro ⟨h1, h2, hne, rfl⟩
    refine ⟨_, _, ⟨rfl, rfl⟩, ?_⟩
    simp [h1, h2, hne, takes_pure]

theorem isBindable_keeps {c : Bool} (h : Takes (isBindable x format) r c r') : r' = r := by
  simp only [isBindable, takes_bind, takes_cellOf] at h
  obtain ⟨cell, _, ⟨-, rfl⟩, h⟩ := h
  split at h
  · exact (takes_pure.mp h).2.symm
  · split at h <;> exact (takes_pure.mp h).2.symm

theorem checkArguments_keeps {name : String} {formats : List Format}
    (h : Takes (checkArguments name formats) r u r') : r' = r := by
  simp only [checkArguments, takes_bind, takes_get] at h
  obtain ⟨_, _, ⟨rfl, rfl⟩, h⟩ := h
  split at h
  · exact (takes_pure.mp h).2.symm
  · exact absurd h not_takes_throw

theorem mapM_keeps {γ : Type} {xs : List γ} {k : γ → Generating β} {bs : List β}
    (hk : ∀ x r b r', Takes (k x) r b r' → r' = r) (h : Takes (xs.mapM k) r bs r') : r' = r := by
  induction xs generalizing r bs with
  | nil => exact (takes_pure.mp h).2.symm
  | cons x xs ih =>
    simp only [List.mapM_cons, takes_bind, takes_pure] at h
    obtain ⟨b, r₁, h₁, bs', r₂, h₂, -, rfl⟩ := h
    rw [ih h₂, hk _ _ _ _ h₁]

/-! ## Values -/

/-- Only the values differ: no cell is gone, and lifetimes grew. -/
def Revalued (r r' : Routine) : Prop :=
  ∃ values, r' = { r with values } ∧
    (r.values.IsSet → r.values.Grows values ∧ values.size = r.values.size)

theorem Revalued.refl (r : Routine) : Revalued r r := ⟨r.values, rfl, fun h => ⟨.refl h, rfl⟩⟩

theorem Revalued.trans (h : Revalued r r') (h' : Revalued r' r'') : Revalued r r'' := by
  obtain ⟨a, rfl, ha⟩ := h
  obtain ⟨b, rfl, hb⟩ := h'
  refine ⟨b, rfl, fun hs => ?_⟩
  obtain ⟨g₁, n₁⟩ := ha hs
  obtain ⟨g₂, n₂⟩ := hb g₁.isSet
  exact ⟨g₁.trans g₂, n₂.trans n₁⟩

theorem changeValues_revalued {k : Arena → Except Fault Arena}
    (h : Takes (changeValues k) r u r')
    (hk : ∀ b, r.values.IsSet → k r.values = .ok b → r.values.Grows b ∧ b.size = r.values.size) :
    Revalued r r' := by
  obtain ⟨values, hv, rfl⟩ := takes_changeValues.mp h
  exact ⟨values, rfl, fun hs => hk values hs hv⟩

theorem useAt_revalued {p : Nat} (h : Takes (useAt x p) r u r') :
    Revalued r r' ∧ (r.values.IsSet → r'.values.Covers x p) := by
  obtain ⟨values, hv, rfl⟩ := takes_changeValues.mp h
  have hs (h : r.values.IsSet) := Arena.useAt_grows h (Int.natCast_nonneg p) hv
  exact ⟨⟨values, rfl, fun h => (hs h).1⟩, fun h => (hs h).2⟩

theorem joinResult_revalued (h : Takes (joinResult x kind) r u r') : Revalued r r' := by
  unfold joinResult at h
  split at h
  · exact changeValues_revalued h fun b hs hb => Arena.join_grows hs hb
  · exact changeValues_revalued h fun b hs hb => Arena.join_grows hs hb
  · obtain ⟨-, rfl⟩ := takes_pure.mp h
    exact .refl r

theorem useAll_revalued {ps : List Parameter} {p : Nat}
    (h : Takes (ps.forM fun q => useAt q.value p) r u r') :
    Revalued r r' ∧ (r.values.IsSet → ∀ q ∈ ps, r'.values.Covers q.value p) := by
  induction ps generalizing r u with
  | nil =>
    obtain ⟨-, rfl⟩ := takes_pure.mp h
    exact ⟨.refl r, by simp⟩
  | cons q ps ih =>
    obtain ⟨_, r₁, h₁, h₂⟩ := takes_bind.mp h
    obtain ⟨hr₁, hc₁⟩ := useAt_revalued h₁
    obtain ⟨hr₂, hc₂⟩ := ih h₂
    refine ⟨hr₁.trans hr₂, fun hs => ?_⟩
    obtain ⟨values, rfl, g₁⟩ := hr₁
    obtain ⟨values', rfl, g₂⟩ := hr₂
    have hs₁ := (g₁ hs).1.isSet
    simp only [List.mem_cons, forall_eq_or_imp]
    exact ⟨(g₂ hs₁).1.covers _ _ (hc₁ hs), hc₂ hs₁⟩

/-! ## Instructions -/

/-- **What appending an instruction does**: the stream gets longer by it, its result is a new value,
and its parameters are needed where it stands. -/
structure Appended (kind : InstructionKind) (r : Routine) (x : ValueId) (r' : Routine) : Prop where
  result : x = r.values.size
  routine : ∃ values, r' = { r with
      values
      instructions := r.instructions.push ⟨kind, x, kind.parameters, []⟩ } ∧
    (r.values.IsSet → r.values.Grows values ∧ values.size = r.values.size + 1 ∧
      ∀ p ∈ kind.parameters, values.Covers p.value r.instructions.size)

theorem append_appended (h : Takes (append kind format) r x r') : Appended kind r x r' := by
  simp only [append, takes_bind, takes_get, takes_create, takes_modify, takes_pure] at h
  obtain ⟨_, _, ⟨rfl, rfl⟩, z, _, ⟨rfl, rfl⟩, _, r₁, h₁, _, r₂, h₂, _, r₃, h₃, _, r₄, h₄, _, r₅,
    h₅, _, _, rfl, rfl, rfl⟩ := h
  have e₁ := changeValues_revalued h₁ fun b hs hb => Arena.setMetadata_grows hs hb
  have e₂ := changeValues_revalued h₂ fun b hs hb => Arena.setInstruction_grows hs hb
  obtain ⟨e₃, hc⟩ := useAll_revalued h₃
  have e₅ := (useAt_revalued h₄).1.trans (joinResult_revalued h₅)
  obtain ⟨v₂, rfl, g₂⟩ := e₁.trans e₂
  obtain ⟨v₃, rfl, g₃⟩ := e₃
  obtain ⟨v₅, rfl, g₅⟩ := e₅
  refine ⟨rfl, v₅, rfl, fun hs => ?_⟩
  obtain ⟨k₁, n₁⟩ := Arena.create_grows hs kind.initialHandle format
  obtain ⟨k₂, n₂⟩ := g₂ k₁.isSet
  obtain ⟨k₃, n₃⟩ := g₃ k₂.isSet
  obtain ⟨k₅, n₅⟩ := g₅ k₃.isSet
  exact ⟨k₁.trans (k₂.trans (k₃.trans k₅)), by simp only [] at n₂ n₃ n₅; omega,
    fun p hp => k₅.covers _ _ (hc k₂.isSet p hp)⟩

theorem Appended.kinds (h : Appended kind r x r') : r'.kinds = r.kinds ++ [kind] := by
  obtain ⟨values, rfl, -⟩ := h.routine
  simp [Routine.kinds]

theorem Appended.loops (h : Appended kind r x r') : r'.loops = r.loops := by
  obtain ⟨values, rfl, -⟩ := h.routine
  rfl

theorem Appended.bindings (h : Appended kind r x r') : r'.bindings = r.bindings := by
  obtain ⟨values, rfl, -⟩ := h.routine
  rfl

theorem Appended.labels (h : Appended kind r x r') : r'.labels = r.labels := by
  obtain ⟨values, rfl, -⟩ := h.routine
  rfl

theorem Appended.le (h : Appended kind r x r') : r.kinds <+: r'.kinds :=
  h.kinds ▸ List.prefix_append _ _

theorem appendMarker_appended {i : Nat} (h : Takes (appendMarker kind) r i r') :
    i = r.kinds.length ∧ ∃ x, Appended kind r x r' := by
  simp only [appendMarker, takes_bind, takes_get, takes_pure] at h
  obtain ⟨_, _, ⟨rfl, rfl⟩, x, r₁, h₁, rfl, rfl⟩ := h
  exact ⟨by simp [Routine.kinds], x, append_appended h₁⟩

theorem appendLabel_appended {l : Label} (h : Takes (appendLabel l) r u r') :
    ∃ x, Appended (.label l) r x r' := by
  simp only [appendLabel, takes_bind, takes_pure] at h
  obtain ⟨x, _, h₁, -, rfl⟩ := h
  exact ⟨x, append_appended h₁⟩

theorem appendJump_appended {l : Label} {test : Option JumpTest}
    (h : Takes (appendJump l test) r u r') : ∃ x, Appended (.jump l test) r x r' := by
  simp only [appendJump, takes_bind, takes_pure] at h
  obtain ⟨x, _, h₁, -, rfl⟩ := h
  exact ⟨x, append_appended h₁⟩

/-! ## Variables -/

theorem attach_revalued (h : Takes (attach x v) r u r') : Revalued r r' := by
  simp only [attach, takes_bind, takes_cellOf] at h
  obtain ⟨c, _, ⟨-, rfl⟩, h⟩ := h
  exact changeValues_revalued h fun b hs hb => Arena.setMetadata_grows hs hb

theorem bind_revalued (h : Takes (bind v x) r u r') :
    ∃ r₁, Revalued r r₁ ∧ r' = { r₁ with bindings := Binding.put v x r.bindings } := by
  simp only [bind, takes_bind, takes_modify] at h
  obtain ⟨_, r₁, h₁, rfl⟩ := h
  have h := attach_revalued h₁
  refine ⟨r₁, h, ?_⟩
  obtain ⟨values, rfl, -⟩ := h
  rfl

theorem mem_put {bs : List Binding} {b : Binding} (h : b ∈ Binding.put v x bs) :
    b = (v, x) ∨ b ∈ bs := by
  induction bs with
  | nil => exact .inl (by simpa [Binding.put] using h)
  | cons a bs ih =>
    rw [Binding.put] at h
    split at h
    · simpa using h
    · split at h
      · rcases List.mem_cons.mp h with h | h
        · exact .inl h
        · exact .inr (List.mem_cons_of_mem _ h)
      · rcases List.mem_cons.mp h with h | h
        · exact .inr (h ▸ List.mem_cons_self)
        · exact (ih h).imp_right (List.mem_cons_of_mem _)

theorem takes_bindToSlot (h : Takes (bindToSlot v) r x r') :
    ∃ r₁ k, Takes (create (.variableSlot v) k) r x r₁ ∧ Takes (bind v x) r₁ () r' := by
  simp only [bindToSlot, takes_bind, takes_pure] at h
  obtain ⟨k, _, hk, y, r₁, h₁, _, _, h₂, rfl, rfl⟩ := h
  obtain rfl := formatOfVariable_keeps hk
  exact ⟨r₁, k, h₁, h₂⟩

theorem valueOf_cases (h : Takes (valueOf v) r x r') :
    (r.bindings.lookup v = some x ∧ r' = r) ∨ Takes (bindToSlot v) r x r' := by
  simp only [valueOf, takes_bind, takes_bound?] at h
  obtain ⟨o, _, ⟨rfl, rfl⟩, h⟩ := h
  split at h
  next y hy =>
    obtain ⟨rfl, rfl⟩ := takes_pure.mp h
    exact .inl ⟨hy, rfl⟩
  next =>
    simp only [takes_bind, takes_variableOf] at h
    obtain ⟨i, _, ⟨-, rfl⟩, h⟩ := h
    split at h
    · exact .inr h
    · exact .inr h
    · exact absurd h not_takes_refuse
    · exact absurd h not_takes_unsupported

end Generating

end Codegen
