import Codegen.Lowering.Body
import Codegen.Proofs.Steps

/-!
# The parts of a lowered construct

For each construct: if its lowering succeeds, then so did the lowering of its parts in between the
instructions of the construct itself, in this order. Proofs about the stream follow these lemmas
and do not unfold the lowering again.

* `Generating.Prepared`: instructions around a region that only copy, note and bind values;
* `Generating.within_merging`, `within_plain`, `keepingBindings_parts`: regions;
* `Generating.lowerArithmetic_parts`, `lowerAssignment_parts`, ...: expressions;
* `Generating.lowerCondition_parts`, `lowerBranches_branched`, `lowerPretested_parts`, ...: branches
  and loops.
-/

namespace Codegen

/-! ## Comparisons with zero -/

/-- The literal that a value of a format is compared with. -/
def zeroOf (format : Format) : NodeKind :=
  .number (if format.isDecimal then .decimal .zero else .integer 0) format

/-- The tree in which the comparison of a node with a literal stands in the place of the node. -/
def Tree.comparedWithZero (t : Tree) (n : NodeId) (zero : NodeKind) : Tree :=
  let (z, t) := t.create zero
  let (c, t) := t.create (.operator .notEquals)
  (t.replace n c).addChildren c [n, z]

/-- Where a control statement leads in a loop. -/
def LoopRecord.target (l : LoopRecord) : LoopControl → Label
  | .stop => l.exit
  | .next => l.start

namespace Generating

variable {α β : Type} {r r' r₁ : Routine} {u : Unit} {n : NodeId} {lower : Lowering}
variable {v : VariableId} {x z : ValueId} {actives : List Binding}

/-! ## Around regions -/

/-- Instructions that copy values, note that they are needed, and bind variables to fresh values.
Those that are kept alive are among the given bindings. -/
inductive Prepared (actives : List Binding) (r : Routine) : Routine → Prop
  | refl : Prepared actives r r
  | cache {r₁ r₂ : Routine} {vars : List Binding} {preserved : Bool} {f : Format} {x : ValueId}
      (h : Prepared actives r r₁) (hvars : ∀ b ∈ vars, r₁.bindings.lookup b.1 = some b.2)
      (ha : Takes (append (.cacheVariables vars preserved) f) r₁ x r₂) : Prepared actives r r₂
  | keep {r₁ r₂ : Routine} {b : Binding} {f : Format} {x : ValueId} (h : Prepared actives r r₁)
      (hb : b ∈ actives) (ha : Takes (append (.getVariable b.1 b.2) f) r₁ x r₂) :
      Prepared actives r r₂
  | copy {r₁ r₂ r₃ : Routine} {v : VariableId} {f : Format} {x y : ValueId}
      (h : Prepared actives r r₁) (hx : r₁.bindings.lookup v = some x)
      (ha : Takes (append (.duplicate x) f) r₁ y r₂) (hb : Takes (bind v y) r₂ () r₃) :
      Prepared actives r r₃
  | fresh {r₁ r₂ r₃ : Routine} {v : VariableId} {k : Handle} {f : Format} {x : ValueId}
      (h : Prepared actives r r₁) (hc : Takes (create k f) r₁ x r₂)
      (hb : Takes (bind v x) r₂ () r₃) (hk : k.inner = [] ∧ k.register? = none) :
      Prepared actives r r₃

theorem bindToSlot_prepared (h : Prepared actives r r₁) (hs : Takes (bindToSlot v) r₁ x r') :
    Prepared actives r r' := by
  obtain ⟨_, _, h₁, h₂⟩ := takes_bindToSlot hs
  exact .fresh h h₁ h₂ ⟨rfl, rfl⟩

theorem prepareVariable_prepared {contexts : List ContextId} (h : Prepared actives r r₁)
    (hp : Takes (prepareVariable contexts n v) r₁ u r') : Prepared actives r r' := by
  simp only [prepareVariable, takes_bind, takes_bound?] at hp
  obtain ⟨o, _, ⟨rfl, rfl⟩, hp⟩ := hp
  split at hp
  next x hx =>
    simp only [takes_bind, takes_handleOf] at hp
    obtain ⟨k, _, ⟨-, rfl⟩, hp⟩ := hp
    split at hp
    case h_1 | h_2 =>
      simp only [takes_bind] at hp
      obtain ⟨f, _, hf, y, r₂, ha, hb⟩ := hp
      obtain rfl := formatOfVariable_keeps hf
      exact .copy h hx ha hb
    case h_3 =>
      obtain ⟨-, rfl⟩ := takes_pure.mp hp
      exact h
  next =>
    simp only [takes_bind, takes_variableOf, takes_get] at hp
    obtain ⟨i, _, ⟨-, rfl⟩, bs, _, hbs, hp⟩ := hp
    obtain rfl := mapM_keeps (fun _ _ _ _ h => (takes_ask.mp h).2) hbs
    obtain ⟨_, _, ⟨rfl, rfl⟩, hp⟩ := hp
    split at hp
    · simp only [takes_bind, takes_pure] at hp
      obtain ⟨x, _, hs, -, rfl⟩ := hp
      exact bindToSlot_prepared h hs
    · obtain ⟨-, rfl⟩ := takes_pure.mp hp
      exact h

theorem prepareAssigned_prepared {nodes : List NodeId} (h : Takes (prepareAssigned nodes) r u r') :
    Prepared actives r r' := by
  simp only [prepareAssigned, takes_bind, takes_get] at h
  obtain ⟨_, _, ⟨rfl, rfl⟩, h⟩ := h
  split at h
  · obtain ⟨-, rfl⟩ := takes_pure.mp h
    exact .refl
  · exact takes_forM (fun _ r' => Prepared actives _ r') h .refl fun v rest r₁ _ r₂ _ hp h =>
      prepareVariable_prepared h hp

theorem cache_prepared {nodes : List NodeId} {preserved : Bool}
    (h : Takes (cache nodes preserved) r u r') : Prepared actives r r' := by
  simp only [cache, takes_bind, takes_get] at h
  obtain ⟨_, _, ⟨rfl, rfl⟩, h⟩ := h
  split at h
  · simp only [appendMarker, takes_bind, takes_get, takes_pure] at h
    obtain ⟨_, _, ⟨_, _, ⟨rfl, rfl⟩, x, _, ha, rfl, rfl⟩, -, rfl⟩ := h
    refine .cache .refl (fun b hb => ?_) ha
    obtain ⟨v, -, hv⟩ := List.mem_filterMap.mp hb
    obtain ⟨y, hy, rfl⟩ := Option.map_eq_some_iff.mp hv
    exact hy
  · obtain ⟨-, rfl⟩ := takes_pure.mp h
    exact .refl

theorem keepAlive_prepared {bs : List Binding} (hbs : bs ⊆ actives)
    (h : Takes (keepAlive bs) r u r') : Prepared actives r r' := by
  refine takes_forM (fun _ r' => Prepared actives r r') h .refl fun b rest r₁ _ r₂ hb hp h => ?_
  simp only [appendMarker, takes_bind, takes_get, takes_pure] at hp
  obtain ⟨_, _, ⟨_, _, ⟨rfl, rfl⟩, x, _, ha, rfl, rfl⟩, -, rfl⟩ := hp
  exact .keep h (hbs hb) ha

theorem keepUsedLater_prepared (h : Takes (keepUsedLater n actives) r u r') :
    Prepared actives r r' := by
  simp only [keepUsedLater, takes_bind, takes_get] at h
  obtain ⟨_, _, ⟨rfl, rfl⟩, h⟩ := h
  exact keepAlive_prepared (fun b hb => (List.mem_filter.mp hb).1) h

theorem Prepared.trans {r₂ : Routine} (h : Prepared actives r r₁) (h' : Prepared actives r₁ r₂) :
    Prepared actives r r₂ := by
  induction h' with
  | refl => exact h
  | cache _ hvars ha ih => exact .cache ih hvars ha
  | keep _ hb ha ih => exact .keep ih hb ha
  | copy _ hx ha hb ih => exact .copy ih hx ha hb
  | fresh _ hc hb hk ih => exact .fresh ih hc hb hk

theorem prepareLoop_prepared (h : Takes (prepareLoop n) r u r') : Prepared actives r r' := by
  simp only [prepareLoop, takes_bind, takes_get] at h
  obtain ⟨_, _, ⟨rfl, rfl⟩, h⟩ := h
  split at h
  · obtain ⟨_, r₁, h₁, h₂⟩ := takes_bind.mp h
    exact (cache_prepared h₁).trans (prepareAssigned_prepared h₂)
  · exact prepareAssigned_prepared h

/-- The pairs that a region leads back. -/
def pairsOf (bindings actives : List Binding) : List MergePair :=
  actives.map fun b => ⟨b.1, b.2, (bindings.lookup b.1).getD b.2⟩

theorem takes_mergePairs {pairs : List MergePair} :
    Takes (mergePairs actives) r pairs r' ↔ pairs = pairsOf r.bindings actives ∧ r' = r := by
  simp only [mergePairs, takes_bind, takes_get, takes_pure]
  constructor
  · rintro ⟨_, _, ⟨rfl, rfl⟩, rfl, rfl⟩
    exact ⟨rfl, rfl⟩
  · rintro ⟨rfl, rfl⟩
    exact ⟨_, _, ⟨rfl, rfl⟩, rfl, rfl⟩

variable {f : Generating Unit}

theorem within_merging (h : Takes (within actives true f) r u r') :
    ∃ enter r₁ r₂ i, Takes (appendMarker (.enterScope actives)) r enter r₁ ∧
      Takes f { r₁ with regions := ⟨actives, some enter⟩ :: r₁.regions } () r₂ ∧
      Takes (appendMarker (.mergeScope enter (pairsOf r₂.bindings actives)))
        { r₂ with regions := r₂.regions.tail } i r' := by
  simp only [within, if_true, takes_bind, takes_map, takes_modify] at h
  obtain ⟨_, r₁, ⟨enter, h₁, rfl⟩, _, _, rfl, _, r₂, h₂, _, _, rfl, h₃⟩ := h
  simp only [takes_bind, takes_mergePairs, takes_pure] at h₃
  obtain ⟨_, _, ⟨rfl, rfl⟩, i, _, h₃, -, rfl⟩ := h₃
  exact ⟨enter, r₁, r₂, i, h₁, h₂, h₃⟩

theorem within_plain (h : Takes (within actives false f) r u r') :
    ∃ r₁, Takes f { r with regions := ⟨actives, none⟩ :: r.regions } () r₁ ∧
      r' = { r₁ with regions := r₁.regions.tail } := by
  simp only [within, Bool.false_eq_true, if_false, takes_bind, takes_modify, takes_pure] at h
  obtain ⟨_, _, ⟨rfl, rfl⟩, _, _, rfl, _, r₁, h₁, _, _, rfl, -, rfl⟩ := h
  exact ⟨r₁, h₁, rfl⟩

theorem keepingBindings_parts (h : Takes (keepingBindings f) r u r') :
    ∃ r₁, Takes f r () r₁ ∧ r' = { r₁ with bindings := r.bindings } := by
  simp only [keepingBindings, takes_bind, takes_get, takes_modify] at h
  obtain ⟨_, _, ⟨rfl, rfl⟩, _, r₁, h₁, rfl⟩ := h
  exact ⟨r₁, h₁, rfl⟩

/-! ## Expressions -/

theorem valueOfNode_parts (h : Takes (valueOfNode lower n) r x r') :
    Takes (lower n) r (some x) r' := by
  simp only [valueOfNode, takes_bind] at h
  obtain ⟨o, r₁, h₁, h⟩ := h
  split at h
  · obtain ⟨rfl, rfl⟩ := takes_pure.mp h
    exact h₁
  · simp only [takes_bind, not_takes_refuse, and_false, exists_false] at h

/-- The instructions of sums, differences and products, over two values. -/
inductive IsArithmetic (x y : ValueId) : InstructionKind → Prop
  | addition : IsArithmetic x y (.addition x y)
  | subtraction : IsArithmetic x y (.subtraction x y)
  | multiplication : IsArithmetic x y (.multiplication x y)

theorem isArithmetic_of_arithmetic? {o : Operator} {y : ValueId} {kind : InstructionKind}
    (h : arithmetic? x y o = some kind) : IsArithmetic x y kind := by
  cases o <;> simp only [arithmetic?, Option.some.injEq, reduceCtorEq] at h
  all_goals
    subst h
    constructor

/-- The constant that an arithmetic operation on two values gives, as far as it is known. -/
inductive Folds (o : Operator) (a : Arena) (x y : ValueId) : Number → Prop
  | both {p q c : Number} (hx : (a.handleAt x).constant? = some p)
      (hy : (a.handleAt y).constant? = some q) (hc : p.fold? o q = some c) (f : Format) :
      Folds o a x y (c.adapt f)
  | annihilating (hy : isAnnihilating o (a.handleAt y).constant? = true) :
      Folds o a x y (.integer 0)

/-- The outcome of an arithmetic operation on two values: one of them, a constant, or the result of
an instruction. -/
inductive Combined (o : Operator) (x y : ValueId) (r : Routine) (z : ValueId) (r' : Routine) : Prop
  | first (hz : z = x) (hr : r' = r) (hn : isNeutral o (r.values.handleAt y).constant? = true)
  | constant {c : Number} {f : Format} (h : Takes (create (.constant c) f) r z r')
      (hc : Folds o r.values x y c)
  | instruction {kind : InstructionKind} {f : Format}
      (hk : arithmetic? x y o = some kind) (h : Takes (append kind f) r z r')

theorem appendArithmetic_combined {o : Operator} {format : Format} {y : ValueId}
    (h : Takes (appendArithmetic o format x y) r z r') : Combined o x y r z r' := by
  simp only [appendArithmetic, takes_bind] at h
  obtain ⟨c, _, hc, h⟩ := h
  obtain rfl := constantOf?_eq hc
  obtain rfl := constantOf?_keeps hc
  split at h
  next hn =>
    obtain ⟨rfl, rfl⟩ := takes_pure.mp h
    exact .first rfl rfl (Bool.and_eq_true_iff.mp hn).2
  split at h
  next ha => exact .constant h (.annihilating (Bool.and_eq_true_iff.mp ha).2)
  split at h
  next kind hkind => exact .instruction hkind h
  next => exact absurd h not_takes_refuse

/-- The outcome of an arithmetic operation, which may take its operands in the other order if that
does not matter. -/
def Operated (o : Operator) (x y : ValueId) (r : Routine) (z : ValueId) (r' : Routine) : Prop :=
  Combined o x y r z r' ∨ (o = .add ∨ o = .multiply) ∧ Combined o y x r z r'

/-- Operands from left to right, then the operation on them. -/
theorem lowerArithmetic_parts {o : Operator} (h : Takes (lowerArithmetic lower n o) r z r') :
    ∃ left right x y r₁ r₂, r.tree.first? n = some left ∧ r.tree.last? n = some right ∧
      Takes (lower left) r (some x) r₁ ∧ Takes (lower right) r₁ (some y) r₂ ∧
      Operated o x y r₂ z r' := by
  simp only [lowerArithmetic, takes_bind, takes_ask] at h
  obtain ⟨⟨left, right⟩, _, hlr, format, _, ⟨-, rfl⟩, x, r₁, hx, y, r₂, hy, cx, _, hcx, cy, _, hcy,
    h⟩ := h
  obtain ⟨h1, h2, -, rfl⟩ := takes_operandsOf.mp hlr
  have hcx' := constantOf?_eq hcx
  obtain rfl := constantOf?_keeps hcx
  have hcy' := constantOf?_eq hcy
  obtain rfl := constantOf?_keeps hcy
  refine ⟨left, right, x, y, r₁, _, h1, h2, valueOfNode_parts hx, valueOfNode_parts hy, ?_⟩
  split at h
  · split at h
    next c hc => exact .inl (.constant h (.both hcx'.symm hcy'.symm hc format))
    next => exact .inl (appendArithmetic_combined h)
  · split at h
    next ho => exact .inr ⟨ho, appendArithmetic_combined h⟩
    next => exact .inl (appendArithmetic_combined h)
  · exact .inl (appendArithmetic_combined h)

/-- A value, or a copy of it. -/
def Copied (x : ValueId) (r : Routine) (y : ValueId) (r' : Routine) : Prop :=
  (y = x ∧ r' = r) ∨ ∃ f, Takes (append (.duplicate x) f) r y r'

/-- An assignment binds a variable to the value or to a copy of it, or stores the value. -/
theorem lowerAssignment_parts (h : Takes (lowerAssignment lower n) r z r') :
    ∃ destination source, r.tree.first? n = some destination ∧ r.tree.last? n = some source ∧
      ((∃ v x r₁ r₂, r.tree.kind destination = .reference v ∧
          Takes (lower source) r (some x) r₁ ∧ Copied x r₁ z r₂ ∧ Takes (bind v z) r₂ () r') ∨
        ∃ x r₁ r₂ f w, (r.tree.kind destination = .link ∨ r.tree.kind destination = .offset) ∧
          Takes (lower destination) r (some x) r₁ ∧ Takes (lower source) r₁ (some z) r₂ ∧
          Takes (append (.move x z) f) r₂ w r') := by
  simp only [lowerAssignment, takes_bind, takes_get] at h
  obtain ⟨⟨destination, source⟩, _, hds, _, _, ⟨rfl, rfl⟩, h⟩ := h
  obtain ⟨h1, h2, -, rfl⟩ := takes_operandsOf.mp hds
  refine ⟨destination, source, h1, h2, ?_⟩
  split at h
  case h_1 v hv =>
    simp only [takes_bind] at h
    obtain ⟨x, r₁, hx, format, _, hf, b, _, hb, h⟩ := h
    obtain rfl := formatOfVariable_keeps hf
    obtain rfl := isBindable_keeps hb
    split at h
    · simp only [takes_bind, takes_pure] at h
      obtain ⟨_, _, ⟨rfl, rfl⟩, _, _, hbind, rfl, rfl⟩ := h
      exact .inl ⟨v, _, _, _, hv, valueOfNode_parts hx, .inl ⟨rfl, rfl⟩, hbind⟩
    · simp only [takes_bind, takes_pure] at h
      obtain ⟨y, r₂, ha, _, _, hbind, rfl, rfl⟩ := h
      exact .inl ⟨v, x, _, r₂, hv, valueOfNode_parts hx, .inr ⟨_, ha⟩, hbind⟩
  case h_4 => exact absurd h not_takes_refuse
  all_goals
    simp only [takes_bind, takes_pure] at h
    obtain ⟨x, r₁, hx, y, r₂, hy, f, _, hf, w, _, ha, rfl, rfl⟩ := h
    obtain rfl := formatOf_keeps hf
    refine .inr ⟨x, r₁, _, f, w, ?_, valueOfNode_parts hx, valueOfNode_parts hy, ha⟩
  · exact .inl ‹_›
  · exact .inr ‹_›

/-- The variable is a member at the offset. -/
def MemberAt (symbols : SymbolTable) (v : VariableId) (offset : Word) : Prop :=
  ∃ info bytes, symbols.variableInfo v = .ok info ∧ info.category = .member bytes ∧
    offset = .ofNat bytes

theorem memberOf_parts {v : VariableId} {offset : Word}
    (h : Takes (memberOf n) r (v, offset) r') :
    r.tree.kind n = .reference v ∧ MemberAt r.symbols v offset ∧ r' = r := by
  simp only [memberOf, takes_bind, takes_get] at h
  obtain ⟨_, _, ⟨rfl, rfl⟩, h⟩ := h
  split at h
  next v' hk =>
    simp only [takes_bind, takes_variableOf] at h
    obtain ⟨i, _, ⟨hi, rfl⟩, h⟩ := h
    split at h
    next bytes hbytes =>
      obtain ⟨he, rfl⟩ := takes_pure.mp h
      cases he
      exact ⟨hk, ⟨i, bytes, hi, hbytes, rfl⟩, rfl⟩
    next => exact absurd h not_takes_refuse
  · exact absurd h not_takes_refuse

theorem lowerLink_parts (h : Takes (lowerLink lower n) r z r') :
    ∃ object name v x r₁ offset f, r.tree.first? n = some object ∧ r.tree.last? n = some name ∧
      r.tree.kind name = .reference v ∧ MemberAt r.symbols v offset ∧
      Takes (lower object) r (some x) r₁ ∧
      Takes (append (.getObjectPointer x offset) f) r₁ z r' := by
  simp only [lowerLink, takes_bind] at h
  obtain ⟨⟨object, name⟩, _, hon, ⟨v, offset⟩, r₁, hm, x, r₂, hx, f, r₃, hf, ha⟩ := h
  obtain ⟨h1, h2, -, rfl⟩ := takes_operandsOf.mp hon
  obtain rfl := formatOfVariable_keeps hf
  obtain ⟨hk, hv, rfl⟩ := memberOf_parts hm
  exact ⟨object, name, v, x, _, offset, f, h1, h2, hk, hv, valueOfNode_parts hx, ha⟩

theorem lowerOffset_parts (h : Takes (lowerOffset lower n) r z r') :
    ∃ object index x y r₁ r₂ f, r.tree.first? n = some object ∧ r.tree.last? n = some index ∧
      Takes (lower object) r (some x) r₁ ∧ Takes (lower index) r₁ (some y) r₂ ∧
      Takes (append (.getMemoryAddress x y elementStride) f) r₂ z r' := by
  simp only [lowerOffset, takes_bind] at h
  obtain ⟨⟨object, index⟩, _, hoi, x, r₁, hx, y, r₂, hy, ha⟩ := h
  obtain ⟨h1, h2, -, rfl⟩ := takes_operandsOf.mp hoi
  exact ⟨object, index, x, y, r₁, r₂, _, h1, h2, valueOfNode_parts hx, valueOfNode_parts hy, ha⟩

/-- The values of nodes, from the first to the last. -/
inductive LowersAll (lower : Lowering) : List NodeId → Routine → List ValueId → Routine → Prop
  | nil {r : Routine} : LowersAll lower [] r [] r
  | cons {n : NodeId} {ns : List NodeId} {x : ValueId} {xs : List ValueId} {r r₁ r' : Routine}
      (h : Takes (lower n) r (some x) r₁) (hs : LowersAll lower ns r₁ xs r') :
      LowersAll lower (n :: ns) r (x :: xs) r'

theorem lowersAll_of_mapM {ns : List NodeId} {xs : List ValueId}
    (h : Takes (ns.mapM (valueOfNode lower)) r xs r') : LowersAll lower ns r xs r' := by
  induction ns generalizing r xs with
  | nil =>
    obtain ⟨rfl, rfl⟩ := takes_pure.mp h
    exact .nil
  | cons n ns ih =>
    simp only [List.mapM_cons, takes_bind, takes_pure] at h
    obtain ⟨x, r₁, h₁, xs, _, h₂, rfl, rfl⟩ := h
    exact .cons (valueOfNode_parts h₁) (ih h₂)

theorem lowerCall_parts {f : FunctionId} (h : Takes (lowerCall lower n f) r z r') :
    ∃ xs r₁ w r₂ symbol k, LowersAll lower (r.tree.children n) r xs r₁ ∧
      Takes (append .evacuate .i64) r₁ w r₂ ∧ r₂.symbols.symbol f = .ok symbol ∧
      Takes (append (.call symbol xs) k) r₂ z r' := by
  simp only [lowerCall, takes_bind, takes_get, takes_ask] at h
  obtain ⟨_, _, ⟨rfl, rfl⟩, xs, r₁, hxs, info, _, ⟨-, rfl⟩, fs, _, hfs, _, _, hc, k, _, hk, w, r₂,
    he, symbol, _, ⟨hs, rfl⟩, ha⟩ := h
  obtain rfl := mapM_keeps (fun _ _ _ _ => formatOf_keeps) hfs
  obtain rfl := checkArguments_keeps hc
  obtain rfl := formatOfType_keeps hk
  exact ⟨xs, _, w, _, symbol, k, lowersAll_of_mapM hxs, he, hs, ha⟩

theorem returnsDecimal_keeps {d : Bool} (h : Takes returnsDecimal r d r') : r' = r := by
  simp only [returnsDecimal, takes_bind, takes_ask, takes_pure] at h
  obtain ⟨i, _, ⟨-, rfl⟩, k, _, hk, -, rfl⟩ := h
  exact formatOfType_keeps hk

theorem lowerReturn_parts (h : Takes (lowerReturn lower n) r u r') :
    (r.tree.first? n = none ∧ ∃ w, Takes (append (.ret none) .i64) r w r') ∨
      ∃ child x y r₁ r₂ w, r.tree.first? n = some child ∧ Takes (lower child) r (some x) r₁ ∧
        Copied x r₁ y r₂ ∧ Takes (append (.ret (some y)) .i64) r₂ w r' := by
  simp only [lowerReturn, takes_bind, takes_get] at h
  obtain ⟨_, _, ⟨rfl, rfl⟩, h⟩ := h
  split at h
  next child hchild =>
    simp only [takes_bind] at h
    obtain ⟨x, r₁, hx, d, _, hd, f, _, hf, h⟩ := h
    obtain rfl := returnsDecimal_keeps hd
    obtain rfl := formatOf_keeps hf
    refine .inr ⟨child, x, ?_⟩
    split at h
    · simp only [takes_bind, takes_map, takes_pure] at h
      obtain ⟨_, r₂, ⟨y, hy, rfl⟩, w, _, ha, -, rfl⟩ := h
      exact ⟨y, _, r₂, w, hchild, valueOfNode_parts hx, .inr ⟨_, hy⟩, ha⟩
    · simp only [takes_bind, takes_pure] at h
      obtain ⟨_, _, ⟨rfl, rfl⟩, w, _, ha, -, rfl⟩ := h
      exact ⟨x, _, _, w, hchild, valueOfNode_parts hx, .inl ⟨rfl, rfl⟩, ha⟩
  next hchild =>
    simp only [takes_bind, takes_pure] at h
    obtain ⟨_, _, ⟨rfl, rfl⟩, w, _, ha, -, rfl⟩ := h
    exact .inl ⟨hchild, w, ha⟩

/-! ## Conditions -/

/-- The steps of a comparison of the operands of a node. -/
def Compared (n : NodeId) (o : Operator) (success failure : Label) (r : Routine)
    (steps : List Step) : Prop :=
  ∃ left right comparison signed, r.tree.first? n = some left ∧ r.tree.last? n = some right ∧
    left ≠ right ∧ Comparison.ofOperator? o = some comparison ∧
    Takes (comparesSigned left right) r signed r ∧
    steps = [.compare left right, .jump success (some ⟨comparison, signed⟩), .jump failure none]

theorem comparesSigned_keeps {left right : NodeId} {c : Bool}
    (h : Takes (comparesSigned left right) r c r') : r' = r := by
  simp only [comparesSigned, takes_bind, takes_ask, takes_pure] at h
  obtain ⟨_, _, ⟨-, rfl⟩, _, _, ⟨-, rfl⟩, -, rfl⟩ := h
  rfl

theorem comparisonSteps_compared {o : Operator} {success failure : Label} {steps : List Step}
    (h : Takes (comparisonSteps n o success failure) r steps r') :
    Compared n o success failure r steps ∧ r' = r := by
  simp only [comparisonSteps, takes_bind, takes_required, takes_pure] at h
  obtain ⟨⟨left, right⟩, _, hlr, c, _, ⟨hc, rfl⟩, signed, _, hs, rfl, rfl⟩ := h
  obtain ⟨h1, h2, hne, rfl⟩ := takes_operandsOf.mp hlr
  obtain rfl := comparesSigned_keeps hs
  exact ⟨⟨left, right, c, signed, h1, h2, hne, hc, hs, rfl⟩, rfl⟩

theorem compareWithZero_parts {c : NodeId} (h : Takes (compareWithZero n) r c r') :
    ∃ format, r.tree.formatOf r.symbols n = .ok format ∧ c = r.tree.size + 1 ∧
      r' = { r with tree := r.tree.comparedWithZero n (zeroOf format) } := by
  simp only [compareWithZero, takes_bind, takes_ask, takes_modifyGet] at h
  obtain ⟨format, _, ⟨hf, rfl⟩, rfl, rfl⟩ := h
  exact ⟨format, hf, by simp [Tree.create, Tree.createAt, Tree.size], rfl⟩

/-- The steps of a condition: a comparison, or the steps of the operands of a logical operator
around the label of its second one. -/
inductive Conditioned : NodeId → Label → Label → Routine → List Step → Routine → Prop
  | logical {n left right : NodeId} {o : Operator} {success failure : Label}
      {r r₂ r' : Routine} {first second : List Step} (hk : r.tree.kind n = .operator o)
      (ho : o.isLogical = true) (h1 : r.tree.first? n = some left)
      (h2 : r.tree.last? n = some right) (hne : left ≠ right)
      (hl : Conditioned left (if o = .and then r.labels else success)
        (if o = .and then failure else r.labels) { r with labels := r.labels + 1 } first r₂)
      (hr : Conditioned right success failure r₂ second r') :
      Conditioned n success failure r (first ++ .label r.labels :: second) r'
  | comparison {n : NodeId} {o : Operator} {success failure : Label} {r : Routine}
      {steps : List Step} (hk : r.tree.kind n = .operator o) (hl : o.isLogical = false)
      (ho : o.isComparison = true) (hc : Compared n o success failure r steps) :
      Conditioned n success failure r steps r
  | nonzero {n c : NodeId} {success failure : Label} {r r' : Routine} {steps : List Step}
      (hk : ∀ o, r.tree.kind n = .operator o → o.isLogical = false ∧ o.isComparison = false)
      (hp : r.tree.kind n ≠ .parenthesis) (hz : Takes (compareWithZero n) r c r')
      (hc : Compared c .notEquals success failure r' steps) :
      Conditioned n success failure r steps r'
  | parenthesis {n inner : NodeId} {success failure : Label} {r r' : Routine}
      {steps : List Step} (hk : r.tree.kind n = .parenthesis) (hl : r.tree.last? n = some inner)
      (hi : Conditioned inner success failure r steps r') :
      Conditioned n success failure r steps r'

theorem conditionStepsWithin_conditioned {fuel : Nat} {success failure : Label}
    {steps : List Step} (h : Takes (conditionStepsWithin fuel n success failure) r steps r') :
    Conditioned n success failure r steps r' := by
  induction fuel generalizing n success failure r steps r' with
  | zero => exact absurd h not_takes_throw
  | succ fuel ih =>
    simp only [conditionStepsWithin, takes_bind, takes_get] at h
    obtain ⟨_, _, ⟨rfl, rfl⟩, h⟩ := h
    split at h
    case h_1 o hk =>
      split at h
      next ho =>
        simp only [takes_bind, takes_newLabel] at h
        obtain ⟨⟨left, right⟩, _, hlr, _, _, ⟨rfl, rfl⟩, h⟩ := h
        obtain ⟨h1, h2, hne, rfl⟩ := takes_operandsOf.mp hlr
        split at h
        next hand =>
          simp only [takes_bind, takes_pure] at h
          obtain ⟨first, r₂, hl, second, _, hr, rfl, rfl⟩ := h
          refine .logical hk ho h1 h2 hne ?_ (ih hr)
          rw [if_pos hand, if_pos hand]
          exact ih hl
        next hand =>
          simp only [takes_bind, takes_pure] at h
          obtain ⟨first, r₂, hl, second, _, hr, rfl, rfl⟩ := h
          refine .logical hk ho h1 h2 hne ?_ (ih hr)
          rw [if_neg hand, if_neg hand]
          exact ih hl
      next ho =>
        split at h
        next hc =>
          obtain ⟨hs, rfl⟩ := comparisonSteps_compared h
          exact .comparison hk (by simpa using ho) hc hs
        next hc =>
          obtain ⟨c, r₁, hz, h⟩ := takes_bind.mp h
          obtain ⟨hs, rfl⟩ := comparisonSteps_compared h
          refine .nonzero (fun o' ho' => ?_) (by simp [hk]) hz hs
          obtain rfl : o = o' := by simpa [hk] using ho'
          simpa using And.intro ho hc
    case h_2 hk =>
      simp only [takes_bind, takes_get, takes_required] at h
      obtain ⟨_, _, ⟨rfl, rfl⟩, inner, _, ⟨hl, rfl⟩, h⟩ := h
      exact .parenthesis hk hl (ih h)
    case h_3 ho hp =>
      obtain ⟨c, r₁, hz, h⟩ := takes_bind.mp h
      obtain ⟨hs, rfl⟩ := comparisonSteps_compared h
      exact .nonzero (fun o' ho' => absurd ho' (ho o')) hp hz hs

theorem lowerCondition_parts {success failure next : Label}
    (h : Takes (lowerCondition lower n success failure (some next)) r u r') :
    ∃ steps r₁, Conditioned n success failure r steps r₁ ∧
      Takes ((Step.simplify (steps ++ [.label next])).forM (appendStep lower)) r₁ u r' := by
  simp only [lowerCondition, simplifiedSteps, conditionSteps, takes_bind, takes_get,
    takes_pure] at h
  obtain ⟨_, _, ⟨steps, r₁, ⟨_, _, ⟨rfl, rfl⟩, hs⟩, rfl, rfl⟩, h⟩ := h
  exact ⟨steps, r₁, conditionStepsWithin_conditioned hs, h⟩

/-! ## Brackets -/

/-- A step between two pairs of instructions: the state is saved and restored around it, and all
variables are brought back to where they were, and bound as they were. -/
def Bracketed (step : Routine → Routine → Prop) (r r' : Routine) : Prop :=
  ∃ save r₁ enter r₂ r₃ i r₄ j, Takes (appendMarker .saveState) r save r₁ ∧
    Takes (appendMarker (.enterScope r.bindings)) r₁ enter r₂ ∧
    step { r₂ with regions := ⟨r.bindings, some enter⟩ :: r₂.regions } r₃ ∧
    Takes (appendMarker (.mergeScope enter (pairsOf r₃.bindings r.bindings)))
      { r₃ with regions := r₃.regions.tail } i r₄ ∧
    Takes (appendMarker (.restoreState save)) { r₄ with bindings := r.bindings } j r'

theorem appendMarker_bindings {kind : InstructionKind} {i : Nat}
    (h : Takes (appendMarker kind) r i r') : r'.bindings = r.bindings := by
  obtain ⟨-, x, hx⟩ := appendMarker_appended h
  exact hx.bindings

/-- The values of two nodes, and their comparison. -/
def ComparesSides (lower : Lowering) (left right : NodeId) (r r' : Routine) : Prop :=
  ∃ x r₁ y r₂ w, Takes (lower left) r (some x) r₁ ∧ Takes (lower right) r₁ (some y) r₂ ∧
    Takes (append (.compare x y) .i64) r₂ w r'

theorem appendComparison_bracketed {left right : NodeId}
    (h : Takes (appendComparison lower left right) r u r') :
    Bracketed (ComparesSides lower left right) r r' := by
  simp only [appendComparison, takes_bind, takes_pure] at h
  obtain ⟨save, r₁, hs, _, _, hk, j, _, hj, -, rfl⟩ := h
  obtain ⟨r₄, hw, rfl⟩ := keepingBindings_parts hk
  simp only [takes_bind, takes_get] at hw
  obtain ⟨_, _, ⟨rfl, rfl⟩, hw⟩ := hw
  obtain ⟨enter, r₂, r₃, i, he, hf, hm⟩ := within_merging hw
  simp only [takes_bind, takes_pure] at hf
  obtain ⟨x, q₁, hx, y, q₂, hy, w, _, hw, -, rfl⟩ := hf
  rw [appendMarker_bindings hs] at he hx hm hj
  exact ⟨save, _, enter, r₂, _, i, r₄, j, hs, he,
    ⟨x, q₁, y, q₂, w, valueOfNode_parts hx, valueOfNode_parts hy, hw⟩, hm, hj⟩

theorem lowerBranchBody_parts (h : Takes (lowerBranchBody lower n) r u r') :
    ∃ body r₁, r.tree.body? n = some body ∧
      Bracketed (fun r r' => ∃ x?, Takes (lower body) r x? r') r r₁ ∧
      Takes (keepUsedLater n r.bindings) r₁ u r' := by
  simp only [lowerBranchBody, takes_bind, takes_get, takes_required] at h
  obtain ⟨_, _, ⟨rfl, rfl⟩, body, _, ⟨hb, rfl⟩, save, r₁, hs, _, _, ⟨rfl, rfl⟩, _, _, hk, j, _, hj,
    h⟩ := h
  obtain ⟨r₄, hw, rfl⟩ := keepingBindings_parts hk
  obtain ⟨enter, r₂, r₃, i, he, hf, hm⟩ := within_merging hw
  simp only [takes_bind, takes_pure] at hf
  obtain ⟨x?, _, hf, -, rfl⟩ := hf
  rw [appendMarker_bindings hs] at he hf hm hj h
  exact ⟨body, _, hb, ⟨save, _, enter, r₂, _, i, r₄, j, hs, he, ⟨x?, hf⟩, hm, hj⟩, h⟩

/-! ## Branches -/

/-- Nodes lowered in order for what they do. -/
inductive LowersEach (lower : Lowering) : List NodeId → Routine → Routine → Prop
  | nil {r : Routine} : LowersEach lower [] r r
  | cons {n : NodeId} {ns : List NodeId} {x? : Option ValueId} {r r₁ r' : Routine}
      (h : Takes (lower n) r x? r₁) (hs : LowersEach lower ns r₁ r') :
      LowersEach lower (n :: ns) r r'

theorem lowersEach_of_forM {ns : List NodeId}
    (h : Takes (ns.forM fun s => do let _ ← lower s) r u r') : LowersEach lower ns r r' := by
  induction ns generalizing r u with
  | nil =>
    obtain ⟨-, rfl⟩ := takes_pure.mp h
    exact .nil
  | cons n ns ih =>
    obtain ⟨_, r₁, h₁, h₂⟩ := takes_bind.mp h
    simp only [takes_bind, takes_pure] at h₁
    obtain ⟨x?, _, h₁, -, rfl⟩ := h₁
    exact .cons h₁ (ih h₂)

theorem lowersEach_of_option {n? : Option NodeId}
    (h : Takes (n?.forM fun s => do let _ ← lower s) r u r') :
    LowersEach lower n?.toList r r' := by
  cases n? with
  | none =>
    obtain ⟨-, rfl⟩ := takes_pure.mp h
    exact .nil
  | some n =>
    obtain ⟨x?, _, h₁, h⟩ := takes_bind.mp h
    obtain ⟨-, rfl⟩ := takes_pure.mp h
    exact .cons h₁ .nil

theorem lowerBranchTest_parts {failure : Label} (h : Takes (lowerBranchTest lower n failure) r u r') :
    ∃ r₁ test, LowersEach lower (r.tree.conditionInitialization n) r r₁ ∧
      r₁.tree.condition? n = some test ∧
      Takes (lowerCondition lower test r₁.labels failure (some r₁.labels))
        { r₁ with labels := r₁.labels + 1 } u r' := by
  simp only [lowerBranchTest, takes_bind, takes_get, takes_required, takes_newLabel] at h
  obtain ⟨_, _, ⟨rfl, rfl⟩, _, r₁, hi, _, _, ⟨rfl, rfl⟩, test, _, ⟨ht, rfl⟩, _, _, ⟨rfl, rfl⟩,
    h⟩ := h
  exact ⟨_, test, lowersEach_of_forM hi, ht, h⟩

theorem checkChain_keeps {t : Tree} {next : NodeId} (h : Takes (checkChain t n next) r u r') :
    r' = r ∧ (t.kind next).isAlternative = true ∧ ∀ c, t.kind n ≠ .otherwise c := by
  unfold checkChain at h
  split at h
  · exact absurd h not_takes_refuse
  next hk =>
    split at h
    next ha => exact ⟨(takes_pure.mp h).2.symm, ha, hk⟩
    · exact absurd h not_takes_refuse

/-- The test of a branch, if it has one. -/
def Tested (lower : Lowering) (n : NodeId) (next : Label) (r r' : Routine) : Prop :=
  ((r.tree.kind n).isConditional = true ∧ Takes (lowerBranchTest lower n next) r () r') ∨
    (r.tree.kind n).isConditional = false ∧ r' = r

/-- The branches of a chain, each but the last with a jump to the end behind it. -/
inductive Branched (lower : Lowering) (stop : Label) : List NodeId → Routine → Routine → Prop
  | nil {r : Routine} : Branched lower stop [] r r
  | last {n : NodeId} {r r₁ r' : Routine} (ht : Tested lower n stop r r₁)
      (hb : Takes (lowerBranchBody lower n) r₁ () r') : Branched lower stop [n] r r'
  | cons {n m : NodeId} {rest : List NodeId} {r r₁ r₂ r₃ r₄ r' : Routine}
      (hm : (r.tree.kind m).isAlternative = true) (hn : ∀ c, r.tree.kind n ≠ .otherwise c)
      (ht : Tested lower n r.labels { r with labels := r.labels + 1 } r₁)
      (hb : Takes (lowerBranchBody lower n) r₁ () r₂)
      (hj : Takes (appendJump stop none) r₂ () r₃) (hl : Takes (appendLabel r.labels) r₃ () r₄)
      (hs : Branched lower stop (m :: rest) r₄ r') : Branched lower stop (n :: m :: rest) r r'

theorem lowerBranches_branched {stop : Label} {ns : List NodeId}
    (h : Takes (lowerBranches lower stop ns) r u r') : Branched lower stop ns r r' := by
  induction ns generalizing r u with
  | nil =>
    obtain ⟨-, rfl⟩ := takes_pure.mp h
    exact .nil
  | cons n rest ih =>
    simp only [lowerBranches, takes_bind, takes_get] at h
    obtain ⟨_, _, ⟨rfl, rfl⟩, h⟩ := h
    cases rest with
    | nil =>
      simp only [List.isEmpty_nil, Bool.not_true, Bool.false_eq_true, if_true, if_false,
        takes_bind, takes_pure] at h
      obtain ⟨_, _, hc, _, _, ⟨rfl, rfl⟩, h⟩ := h
      obtain ⟨-, rfl⟩ := takes_pure.mp hc
      split at h
      next hk =>
        simp only [takes_bind, takes_pure] at h
        obtain ⟨_, r₁, ht, _, _, hb, -, rfl⟩ := h
        exact .last (.inl ⟨hk, ht⟩) hb
      next hk =>
        simp only [takes_bind, takes_pure] at h
        obtain ⟨_, _, hb, -, rfl⟩ := h
        exact .last (.inr ⟨by simpa using hk, rfl⟩) hb
    | cons m rest =>
      simp only [List.isEmpty_cons, Bool.not_false, Bool.false_eq_true, if_true, if_false,
        takes_bind, takes_newLabel] at h
      obtain ⟨_, _, hc, _, _, ⟨rfl, rfl⟩, h⟩ := h
      obtain ⟨rfl, hm, hn⟩ := checkChain_keeps hc
      split at h
      next hk =>
        simp only [takes_bind] at h
        obtain ⟨_, r₁, ht, _, r₂, hb, _, r₃, hj, _, r₄, hl, h⟩ := h
        exact .cons hm hn (.inl ⟨hk, ht⟩) hb hj hl (ih h)
      next hk =>
        simp only [takes_bind] at h
        obtain ⟨_, r₂, hb, _, r₃, hj, _, r₄, hl, h⟩ := h
        exact .cons hm hn (.inr ⟨by simpa using hk, rfl⟩) hb hj hl (ih h)

theorem lowerChain_parts (h : Takes (lowerChain lower n) r u r') :
    ∃ r₁ i r₂ r₃, (∀ actives, Prepared actives r r₁) ∧
      Takes (appendMarker (.branch (r.tree.branches n))) r₁ i r₂ ∧
      Branched lower r₂.labels (r.tree.branches n) { r₂ with labels := r₂.labels + 1 } r₃ ∧
      Takes (appendLabel r₂.labels) r₃ () r' := by
  simp only [lowerChain, takes_bind, takes_get, takes_newLabel] at h
  obtain ⟨_, _, ⟨rfl, rfl⟩, _, r₀, hc, _, r₁, hp, i, r₂, hi, _, _, ⟨rfl, rfl⟩, _, r₃, hb, hl⟩ := h
  exact ⟨r₁, i, r₂, r₃, fun _ => (cache_prepared hc).trans (prepareAssigned_prepared hp), hi,
    lowerBranches_branched hb, hl⟩

/-! ## Loops -/

theorem openSymmetry_parts {start exit : Label} {symmetry : Nat}
    (h : Takes (openSymmetry n start exit actives) r symmetry r') :
    ∃ r₁, Takes (appendMarker (.symmetryStart n actives)) r symmetry r₁ ∧
      r' = { r₁ with loops := (n, ⟨start, exit, symmetry, actives⟩) :: r₁.loops } := by
  simp only [openSymmetry, takes_bind, takes_modify, takes_pure] at h
  obtain ⟨_, r₁, h₁, _, _, rfl, rfl, rfl⟩ := h
  exact ⟨r₁, h₁, rfl⟩

theorem closeSymmetry_parts {symmetry : Nat}
    (h : Takes (closeSymmetry symmetry actives) r u r') :
    ∃ i r₁, Takes (appendMarker (.symmetryEnd symmetry (pairsOf r.bindings actives))) r i r₁ ∧
      Takes (actives.forM fun b => bind b.1 b.2) r₁ u r' := by
  simp only [closeSymmetry, takes_bind, takes_mergePairs] at h
  obtain ⟨_, _, ⟨rfl, rfl⟩, i, r₁, h₁, h₂⟩ := h
  exact ⟨i, r₁, h₁, h₂⟩

theorem lowerLoopBody_parts (h : Takes (lowerLoopBody lower n) r u r') :
    ∃ body x?, r.tree.body? n = some body ∧ Takes (lower body) r x? r' := by
  simp only [lowerLoopBody, takes_bind, takes_get, takes_required, takes_pure] at h
  obtain ⟨_, _, ⟨rfl, rfl⟩, body, _, ⟨hb, rfl⟩, x?, _, h, -, rfl⟩ := h
  exact ⟨body, x?, hb, h⟩

theorem lowerBeforeCondition_parts (h : Takes (lowerBeforeCondition lower n) r u r') :
    LowersEach lower (r.tree.conditionInitialization n) r r' := by
  simp only [lowerBeforeCondition, takes_bind, takes_get] at h
  obtain ⟨_, _, ⟨rfl, rfl⟩, h⟩ := h
  exact lowersEach_of_forM h

theorem lowerLoopTest_parts {success failure next : Label}
    (h : Takes (lowerLoopTest lower n success failure next) r u r') :
    ∃ test, r.tree.condition? n = some test ∧
      Takes (lowerCondition lower test success failure (some next)) r u r' := by
  simp only [lowerLoopTest, takes_bind, takes_get, takes_required] at h
  obtain ⟨_, _, ⟨rfl, rfl⟩, test, _, ⟨ht, rfl⟩, h⟩ := h
  exact ⟨test, ht, h⟩

/-- What a loop with a condition does before its first round: its initialization, what prepares
it, and the first test. -/
def EntersLoop (lower : Lowering) (n : NodeId) (stop : Label) (r r' : Routine) : Prop :=
  ∃ r₁ r₂ r₃ test, LowersEach lower (r.tree.loopInitialization? n).toList r r₁ ∧
    (∀ actives, Prepared actives r₁ r₂) ∧
    LowersEach lower (r₂.tree.conditionInitialization n) r₂ r₃ ∧
    r₃.tree.condition? n = some test ∧
    Takes (lowerCondition lower test r₃.labels stop (some r₃.labels))
      { r₃ with labels := r₃.labels + 1 } () r'

/-- One round of a loop with a condition, from the label of its start to the reads behind its
test. -/
def LoopRound (lower : Lowering) (n : NodeId) (start stop : Label) (actives : List Binding)
    (r r' : Routine) : Prop :=
  ∃ r₁ symmetry r₂ body x? r₃ r₄ r₅ r₆ test r₇, Takes (appendLabel start) r () r₁ ∧
    Takes (openSymmetry n start stop actives) r₁ symmetry r₂ ∧
    r₂.tree.body? n = some body ∧ Takes (lower body) r₂ x? r₃ ∧
    LowersEach lower (r₃.tree.loopAction? n).toList r₃ r₄ ∧
    Takes (closeSymmetry symmetry actives) r₄ () r₅ ∧
    LowersEach lower (r₅.tree.conditionInitialization n) r₅ r₆ ∧
    r₆.tree.condition? n = some test ∧
    Takes (lowerCondition lower test start r₆.labels (some r₆.labels))
      { r₆ with labels := r₆.labels + 1 } () r₇ ∧
    Takes (keepAlive actives) r₇ () r'

theorem lowerPretested_parts (h : Takes (lowerPretested lower n) r u r') :
    ∃ r₁ save r₂ r₃ r₄ j,
      EntersLoop lower n (r.labels + 1) { r with labels := r.labels + 2 } r₁ ∧
      Takes (appendMarker .saveState) r₁ save r₂ ∧
      LoopRound lower n r.labels (r.labels + 1) r₂.bindings
        { r₂ with regions := ⟨r₂.bindings, none⟩ :: r₂.regions } r₃ ∧
      Takes (appendLabel (r.labels + 1)) { r₃ with regions := r₃.regions.tail } () r₄ ∧
      Takes (appendMarker (.restoreState save)) r₄ j r' := by
  simp only [lowerPretested, takes_bind, takes_get, takes_newLabel, takes_pure] at h
  obtain ⟨_, _, ⟨rfl, rfl⟩, _, _, ⟨rfl, rfl⟩, _, _, ⟨rfl, rfl⟩, _, r₁, hi, _, r₂, hp, _, r₃, hc, _,
    _, ⟨rfl, rfl⟩, _, r₄, ht, save, r₅, hs, _, _, ⟨rfl, rfl⟩, _, r₆, hw, _, r₇, hl, j, _, hr, -,
    rfl⟩ := h
  obtain ⟨test, htest, ht⟩ := lowerLoopTest_parts ht
  obtain ⟨r₈, hf, rfl⟩ := within_plain hw
  simp only [takes_bind, takes_get, takes_newLabel] at hf
  obtain ⟨_, q₁, h₁, symmetry, q₂, h₂, _, q₃, h₃, _, _, ⟨rfl, rfl⟩, _, q₄, h₄, _, q₅, h₅, _, q₆, h₆,
    _, _, ⟨rfl, rfl⟩, _, q₇, h₇, h₈⟩ := hf
  obtain ⟨body, x?, hb, h₃⟩ := lowerLoopBody_parts h₃
  obtain ⟨test', htest', h₇⟩ := lowerLoopTest_parts h₇
  exact ⟨r₄, save, _, r₈, r₇, j, ⟨r₁, r₂, r₃, test, lowersEach_of_option hi,
    fun _ => prepareLoop_prepared hp, lowerBeforeCondition_parts hc, htest, ht⟩, hs,
    ⟨q₁, symmetry, q₂, body, x?, _, q₄, q₅, q₆, test', q₇, h₁, h₂, hb, h₃, lowersEach_of_option h₄,
      h₅, lowerBeforeCondition_parts h₆, htest', h₇, h₈⟩, hl, hr⟩

/-- One round of an endless loop. -/
def EndlessRound (lower : Lowering) (n : NodeId) (round exit : Label) (actives : List Binding)
    (r r' : Routine) : Prop :=
  ∃ r₁ symmetry r₂ body x? r₃, Takes (appendLabel round) r () r₁ ∧
    Takes (openSymmetry n round exit actives) r₁ symmetry r₂ ∧
    r₂.tree.body? n = some body ∧ Takes (lower body) r₂ x? r₃ ∧
    Takes (closeSymmetry symmetry actives) r₃ () r'

/-- An endless loop has three labels: one ahead of it, that of its rounds, and its end. -/
theorem lowerForever_parts (h : Takes (lowerForever lower n) r u r') :
    ∃ r₁ save r₂ r₃ r₄ r₅ r₆ j, (∀ actives, Prepared actives r r₁) ∧
      Takes (appendMarker .saveState) r₁ save r₂ ∧
      Takes (appendLabel r₂.labels) { r₂ with labels := r₂.labels + 2 } () r₃ ∧
      EndlessRound lower n r₃.labels (r₂.labels + 1) r₃.bindings
        { r₃ with
          labels := r₃.labels + 1
          regions := ⟨r₃.bindings, none⟩ :: r₃.regions } r₄ ∧
      Takes (appendJump r₃.labels none) { r₄ with regions := r₄.regions.tail } () r₅ ∧
      Takes (appendMarker (.restoreState save)) r₅ j r₆ ∧
      Takes (appendLabel (r₂.labels + 1)) r₆ () r' := by
  simp only [lowerForever, takes_bind, takes_get, takes_newLabel] at h
  obtain ⟨_, r₁, hp, save, r₂, hs, _, _, ⟨rfl, rfl⟩, _, _, ⟨rfl, rfl⟩, _, r₃, hl, _, _, ⟨rfl, rfl⟩,
    _, _, ⟨rfl, rfl⟩, _, r₅, hw, _, r₆, hj, j, r₇, hr, hx⟩ := h
  obtain ⟨r₄, hf, rfl⟩ := within_plain hw
  simp only [takes_bind] at hf
  obtain ⟨_, q₁, h₁, symmetry, q₂, h₂, _, q₃, h₃, h₄⟩ := hf
  obtain ⟨body, x?, hb, h₃⟩ := lowerLoopBody_parts h₃
  exact ⟨r₁, save, r₂, r₃, r₄, r₆, r₇, j, fun _ => prepareLoop_prepared hp, hs, hl,
    ⟨q₁, symmetry, q₂, body, x?, q₃, h₁, h₂, hb, h₃, h₄⟩, hj, hr, hx⟩

theorem lowerControl_parts {control : LoopControl} (h : Takes (lowerControl n control) r u r') :
    ∃ loop record save r₁ i r₂ r₃ j, r.tree.enclosingLoop? n = some loop ∧
      r.loops.lookup loop = some record ∧ Takes (appendMarker .saveState) r save r₁ ∧
      Takes (appendMarker (.symmetryEnd record.symmetry (pairsOf r.bindings record.actives)))
        r₁ i r₂ ∧
      Takes (appendJump (record.target control) none) r₂ () r₃ ∧
      Takes (appendMarker (.restoreState save)) r₃ j r' := by
  simp only [lowerControl, takes_bind, takes_get, takes_required, takes_mergePairs] at h
  obtain ⟨_, _, ⟨rfl, rfl⟩, loop, _, ⟨hl, rfl⟩, record, _, ⟨hr, rfl⟩, _, _, ⟨rfl, rfl⟩, save, r₁, hs,
    i, r₂, hi, h⟩ := h
  refine ⟨loop, record, save, r₁, i, r₂, ?_⟩
  cases control
  all_goals
    simp only [takes_bind, takes_pure] at h
    obtain ⟨_, r₃, hj, j, _, hx, -, rfl⟩ := h
    exact ⟨r₃, j, hl, hr, hs, hi, hj, hx⟩

/-! ## Nodes -/

/-- Statements in order; the later branches of a chain are left out. -/
inductive Stated (lower : Lowering) : Option ValueId → List NodeId → Routine → Option ValueId →
    Routine → Prop
  | nil {x? : Option ValueId} {r : Routine} : Stated lower x? [] r x? r
  | skip {n : NodeId} {ns : List NodeId} {x? y? : Option ValueId} {r r' : Routine}
      (hk : (r.tree.kind n).isAlternative = true) (hs : Stated lower x? ns r y? r') :
      Stated lower x? (n :: ns) r y? r'
  | cons {n : NodeId} {ns : List NodeId} {x? y? z? : Option ValueId} {r r₁ r' : Routine}
      (hk : (r.tree.kind n).isAlternative = false) (h : Takes (lower n) r y? r₁)
      (hs : Stated lower y? ns r₁ z? r') : Stated lower x? (n :: ns) r z? r'

theorem lowerStatements_stated {ns : List NodeId} {x? y? : Option ValueId}
    (h : Takes (lowerStatements lower x? ns) r y? r') : Stated lower x? ns r y? r' := by
  induction ns generalizing x? r with
  | nil =>
    obtain ⟨rfl, rfl⟩ := takes_pure.mp h
    exact .nil
  | cons n ns ih =>
    simp only [lowerStatements, takes_bind, takes_get] at h
    obtain ⟨_, _, ⟨rfl, rfl⟩, h⟩ := h
    split at h
    next hk => exact .skip hk (ih h)
    next hk =>
      obtain ⟨y?, r₁, h₁, h₂⟩ := takes_bind.mp h
      exact .cons (by simpa using hk) h₁ (ih h₂)

/-- **The lowering of a node by its construct**, with the lowering of its parts. -/
inductive LowersNode (lower : Lowering) (n : NodeId) (r : Routine) :
    Option ValueId → Routine → Prop
  | statements {x? : Option ValueId} {r' : Routine}
      (hk : (∃ c, r.tree.kind n = .scope c) ∨ r.tree.kind n = .parenthesis)
      (h : Stated lower none (r.tree.children n) r x? r') : LowersNode lower n r x? r'
  | number {v : Number} {f : Format} {x : ValueId} {r' : Routine}
      (hk : r.tree.kind n = .number v f) (h : Takes (create (.constant v) f) r x r') :
      LowersNode lower n r (some x) r'
  | reference {v : VariableId} {x : ValueId} {r' : Routine}
      (hk : r.tree.kind n = .reference v) (h : Takes (valueOf v) r x r') :
      LowersNode lower n r (some x) r'
  | arithmetic {o : Operator} {x : ValueId} {r' : Routine} (hk : r.tree.kind n = .operator o)
      (ho : o.category = .classic) (h : Takes (lowerArithmetic lower n o) r x r') :
      LowersNode lower n r (some x) r'
  | assignment {o : Operator} {x : ValueId} {r' : Routine} (hk : r.tree.kind n = .operator o)
      (ho : o.category = .assign) (h : Takes (lowerAssignment lower n) r x r') :
      LowersNode lower n r (some x) r'
  | link {x : ValueId} {r' : Routine} (hk : r.tree.kind n = .link)
      (h : Takes (lowerLink lower n) r x r') : LowersNode lower n r (some x) r'
  | offset {x : ValueId} {r' : Routine} (hk : r.tree.kind n = .offset)
      (h : Takes (lowerOffset lower n) r x r') : LowersNode lower n r (some x) r'
  | call {f : FunctionId} {x : ValueId} {r' : Routine} (hk : r.tree.kind n = .call f)
      (h : Takes (lowerCall lower n f) r x r') : LowersNode lower n r (some x) r'
  | chain {c : ContextId} {r' : Routine} (hk : r.tree.kind n = .ifBranch c)
      (h : Takes (lowerChain lower n) r () r') : LowersNode lower n r none r'
  | forever {c : ContextId} {r' : Routine} (hk : r.tree.kind n = .loop c true)
      (h : Takes (lowerForever lower n) r () r') : LowersNode lower n r none r'
  | pretested {c : ContextId} {r' : Routine} (hk : r.tree.kind n = .loop c false)
      (h : Takes (lowerPretested lower n) r () r') : LowersNode lower n r none r'
  | control {c : LoopControl} {r' : Routine} (hk : r.tree.kind n = .control c)
      (h : Takes (lowerControl n c) r () r') : LowersNode lower n r none r'
  | ret {r' : Routine} (hk : r.tree.kind n = .ret) (h : Takes (lowerReturn lower n) r () r') :
      LowersNode lower n r none r'
  | stackAddress {identity : String} {bytes : Nat} {t : TypeId} {x : ValueId} {r' : Routine}
      (hk : r.tree.kind n = .stackAddress identity bytes t)
      (h : Takes (append (.allocateStack (r.symbol ++ s!"_S{r.identities}") bytes) .u64)
        { r with identities := r.identities + 1 } x r') : LowersNode lower n r (some x) r'

theorem lowerNode_cases {x? : Option ValueId} (h : Takes (lowerNode lower n) r x? r') :
    LowersNode lower n r x? r' := by
  simp only [lowerNode, takes_bind, takes_get] at h
  obtain ⟨_, _, ⟨rfl, rfl⟩, h⟩ := h
  split at h
  case h_1 c hk => exact .statements (.inl ⟨c, hk⟩) (lowerStatements_stated h)
  case h_2 hk => exact .statements (.inr hk) (lowerStatements_stated h)
  case h_3 v f hk =>
    obtain ⟨x, hx, rfl⟩ := takes_map.mp h
    exact .number hk hx
  case h_4 v hk =>
    obtain ⟨x, hx, rfl⟩ := takes_map.mp h
    exact .reference hk hx
  case h_5 o hk =>
    split at h
    case h_1 ho =>
      obtain ⟨x, hx, rfl⟩ := takes_map.mp h
      exact .arithmetic hk ho hx
    case h_2 ho =>
      obtain ⟨x, hx, rfl⟩ := takes_map.mp h
      exact .assignment hk ho hx
    all_goals exact absurd h not_takes_unsupported
  case h_6 hk =>
    obtain ⟨x, hx, rfl⟩ := takes_map.mp h
    exact .link hk hx
  case h_7 hk =>
    obtain ⟨x, hx, rfl⟩ := takes_map.mp h
    exact .offset hk hx
  case h_8 f hk =>
    obtain ⟨x, hx, rfl⟩ := takes_map.mp h
    exact .call hk hx
  case h_9 c hk =>
    simp only [takes_bind, takes_pure] at h
    obtain ⟨_, _, h, rfl, rfl⟩ := h
    exact .chain hk h
  case h_12 c forever hk =>
    cases forever
    all_goals
      simp only [takes_bind, takes_pure, if_true, if_false, Bool.false_eq_true] at h
      obtain ⟨_, _, h, rfl, rfl⟩ := h
    · exact .pretested hk h
    · exact .forever hk h
  case h_13 c hk =>
    simp only [takes_bind, takes_pure] at h
    obtain ⟨_, _, h, rfl, rfl⟩ := h
    exact .control hk h
  case h_14 hk =>
    simp only [takes_bind, takes_pure] at h
    obtain ⟨_, _, h, rfl, rfl⟩ := h
    exact .ret hk h
  case h_15 identity bytes t hk =>
    simp only [takes_bind, takes_newIdentity, takes_map] at h
    obtain ⟨_, _, ⟨rfl, rfl⟩, x, h, rfl⟩ := h
    exact .stackAddress hk h
  all_goals exact absurd h not_takes_refuse

/-! ## Functions -/

theorem bindParameter_prepared {vs : List VariableId} {xs : List ValueId}
    (hp : Prepared actives r r₁) (h : Takes (vs.mapM bindParameter) r₁ xs r') :
    Prepared actives r r' := by
  induction vs generalizing r₁ xs with
  | nil =>
    obtain ⟨-, rfl⟩ := takes_pure.mp h
    exact hp
  | cons v vs ih =>
    simp only [List.mapM_cons, bindParameter, takes_bind, takes_pure] at h
    obtain ⟨x, _, ⟨f, _, hf, _, r₂, hc, _, _, hb, rfl, rfl⟩, ys, _, hs, -, rfl⟩ := h
    obtain rfl := formatOfVariable_keeps hf
    exact ih (.fresh hp hc hb ⟨rfl, rfl⟩) hs

theorem bindParameters_parts (h : Takes bindParameters r u r') :
    ∃ xs r₁ w, Prepared [] r r₁ ∧ Takes (append (.bindParameters xs) .i64) r₁ w r' := by
  simp only [bindParameters, takes_bind, takes_ask, takes_pure] at h
  obtain ⟨f, _, ⟨-, rfl⟩, fs, _, hfs, _, _, hc, xs, r₁, hxs, w, _, ha, -, rfl⟩ := h
  obtain rfl := mapM_keeps (fun _ _ _ _ => formatOfVariable_keeps) hfs
  obtain rfl := checkArguments_keeps hc
  exact ⟨xs, r₁, w, bindParameter_prepared .refl hxs, ha⟩

theorem finish_parts (h : Takes finish r u r') :
    r' = r ∨ ∃ w, Takes (append (.ret none) .i64) r w r' := by
  simp only [finish, takes_bind, takes_get] at h
  obtain ⟨_, _, ⟨rfl, rfl⟩, h⟩ := h
  split at h
  · simp only [takes_bind, takes_pure] at h
    obtain ⟨w, _, h, -, rfl⟩ := h
    exact .inr ⟨w, h⟩
  · exact .inl (takes_pure.mp h).2.symm

theorem finish_ends (h : Takes finish r u r') :
    ∃ value, r'.kinds.getLast? = some (.ret value) := by
  simp only [finish, takes_bind, takes_get] at h
  obtain ⟨_, _, ⟨rfl, rfl⟩, h⟩ := h
  split at h
  · simp only [takes_bind, takes_pure] at h
    obtain ⟨w, _, h, -, rfl⟩ := h
    exact ⟨none, by rw [(append_appended h).kinds, List.getLast?_concat]⟩
  next hr =>
    obtain ⟨-, rfl⟩ := takes_pure.mp h
    rw [Bool.not_eq_true', Bool.not_eq_false, Option.any_eq_true] at hr
    obtain ⟨i, hi, hr⟩ := hr
    obtain ⟨value, hk⟩ : ∃ value, i.kind = .ret value := by
      unfold isReturn at hr
      split at hr
      next value hk => exact ⟨value, hk⟩
      next => cases hr
    refine ⟨value, ?_⟩
    rw [Routine.kinds, List.getLast?_map, Array.getLast?_toList, hi, Option.map_some, hk]

theorem lowerFunction_parts {body : NodeId} (h : Takes (lowerFunction body) r u r') :
    ∃ r₁ x? r₂, Takes bindParameters r () r₁ ∧ Takes (Generating.lower body) r₁ x? r₂ ∧
      Takes finish r₂ u r' := by
  simp only [lowerFunction, takes_bind] at h
  obtain ⟨_, r₁, h₁, x?, r₂, h₂, h₃⟩ := h
  exact ⟨r₁, x?, r₂, h₁, h₂, h₃⟩

end Generating

end Codegen
