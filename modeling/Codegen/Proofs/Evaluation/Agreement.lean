import Codegen.Proofs.Evaluation.Address
import Codegen.Proofs.Evaluation.Operator
import Codegen.Proofs.Lowering.ShortCircuit

/-!
# Literals that are compared early, and at run time

A comparison of literals has an outcome before any code is made, and code that finds an outcome if
it is lowered all the same. The first one reads words with signs. The second one reads them without
signs if neither format has one. The order of two words is the same either way unless just one of
them is below zero.

* `Comparison.holdsUnsigned_eq_iff`: words with signs and without;
* `JumpTest.Agrees`, `decides_eq_iff`: tests to which signs do not matter;
* `Condition.holdsSigned`, `Condition.Agrees`: conditions as they are read early;
* `Shape.Ground`, `Ground.truth_eq`: conditions on literals;
* `Shape.outcome_iff`: which comparisons of literals have the outcome that their code finds;
* `Generating.exists_steps_ground`: code for conditions on literals reaches the label of the early
  outcome, if all comparisons agree;
* `Generating.literals_agree`: **early outcomes and code agree** as far as signs do not matter.
-/

namespace Codegen

open Shape (node subs)

/-! ## Words with signs and without -/

theorem toUInt64_lt_iff (a b : Word) :
    a.toUInt64 < b.toUInt64 ↔ ((a < 0 ↔ b < 0) ↔ a < b) := by
  have ha : a.toInt = a.toBitVec.toInt := rfl
  have hb : b.toInt = b.toBitVec.toInt := rfl
  have hlt : a.toUInt64 < b.toUInt64 ↔ a.toBitVec.toNat < b.toBitVec.toNat := Iff.rfl
  have hz : (0 : Word).toInt = 0 := rfl
  rw [hlt, Int64.lt_iff_toInt_lt, Int64.lt_iff_toInt_lt, Int64.lt_iff_toInt_lt, ha, hb, hz,
    BitVec.toInt_eq_toNat_cond, BitVec.toInt_eq_toNat_cond]
  have := a.toBitVec.isLt
  have := b.toBitVec.isLt
  split <;> split <;> omega

theorem toUInt64_le_iff (a b : Word) :
    a.toUInt64 ≤ b.toUInt64 ↔ ((a < 0 ↔ b < 0) ↔ a ≤ b) := by
  rw [← UInt64.not_lt, toUInt64_lt_iff, ← Int64.not_lt]
  tauto

/-- Does the comparison ask whether words are equal? -/
def Comparison.IsEquality (c : Comparison) : Prop := c = equal ∨ c = notEqual

instance (c : Comparison) : Decidable c.IsEquality := inferInstanceAs (Decidable (_ ∨ _))

/-- **Signs do not matter** for equality, and on one side of zero. -/
theorem Comparison.holdsUnsigned_eq_iff (c : Comparison) (a b : Word) :
    c.holdsUnsigned a b = c.holds a b ↔ c.IsEquality ∨ (a < 0 ↔ b < 0) := by
  have order {p q side : Prop} [Decidable p] [Decidable q] (h : p ↔ (side ↔ q))
      (hc : ¬ c.IsEquality) : decide p = decide q ↔ c.IsEquality ∨ side := by
    rw [decide_eq_decide, h, or_iff_right hc]
    tauto
  cases c with
  | equal | notEqual => simp [holdsUnsigned, holds, IsEquality]
  | less => exact order (toUInt64_lt_iff a b) (by decide)
  | lessOrEqual => exact order (toUInt64_le_iff a b) (by decide)
  | greater => exact (order (toUInt64_lt_iff b a) (by decide)).trans (or_congr_right iff_comm)
  | greaterOrEqual =>
    exact (order (toUInt64_le_iff b a) (by decide)).trans (or_congr_right iff_comm)

namespace JumpTest

variable {test : JumpTest} {a b : Word}

/-- The test reads signs, or signs do not matter to it. -/
def Agrees (test : JumpTest) (a b : Word) : Prop :=
  test.signed = true ∨ test.comparison.IsEquality ∨ (a < 0 ↔ b < 0)

instance (test : JumpTest) (a b : Word) : Decidable (test.Agrees a b) :=
  inferInstanceAs (Decidable (_ ∨ _ ∨ _))

/-- **The test has the outcome of words with signs** if signs do not matter to it, and only then. -/
theorem decides_eq_iff : test.decides (a, b) = test.comparison.holds a b ↔ test.Agrees a b := by
  obtain ⟨c, signed⟩ := test
  cases signed with
  | true => simp [decides, Agrees]
  | false => simpa [decides, Agrees] using c.holdsUnsigned_eq_iff a b

/-- Without signs, -1 is the largest word. -/
example : JumpTest.decides ⟨.less, false⟩ (-1, 1) ≠ Comparison.less.holds (-1) 1 := by decide

end JumpTest

/-! ## Conditions -/

namespace Condition

variable (val : NodeId → Word)

/-- The outcome of a condition that is read with signs. -/
def holdsSigned : Condition → Bool
  | both c d => c.holdsSigned && d.holdsSigned
  | either c d => c.holdsSigned || d.holdsSigned
  | compares l r t => t.comparison.holds (val l) (val r)
  | nonzero n => val n != 0

/-- Signs do not matter to any test of the condition. -/
def Agrees : Condition → Prop
  | both c d | either c d => c.Agrees ∧ d.Agrees
  | compares l r t => t.Agrees (val l) (val r)
  | nonzero _ => True

variable {val}

/-- **A condition to which signs do not matter** may be read with signs. -/
theorem holds_eq_holdsSigned {c : Condition} (h : c.Agrees val) :
    c.holds val = c.holdsSigned val := by
  induction c with
  | both c d hc hd | either c d hc hd => rw [holds, holdsSigned, hc h.1, hd h.2]
  | compares l r t => exact JumpTest.decides_eq_iff.mpr h
  | nonzero => rfl

end Condition

/-! ## Conditions on literals -/

namespace Shape

/-- **Conditions on literals**: words, comparisons of two words, joined by logical operators. -/
inductive Ground : Shape → Prop
  | number (i : NodeId) (w : Word) (f : Format) : Ground (node i (.number (.integer w) f) [])
  | comparison (i : NodeId) {o : Operator} (ho : o.isComparison = true) (a : NodeId) (v : Word)
      (f : Format) (c : NodeId) (w : Word) (g : Format) :
      Ground (node i (.operator o)
        [node a (.number (.integer v) f) [], node c (.number (.integer w) g) []])
  | logical (i : NodeId) {o : Operator} (ho : o.isLogical = true) {l r : Shape} (hl : Ground l)
      (hr : Ground r) : Ground (node i (.operator o) [l, r])

theorem truth_comparison {o : Operator} {k : Comparison} (ho : Comparison.ofOperator? o = some k)
    (i a c : NodeId) (v w : Word) (f g : Format) (σ : Truth) :
    (node i (.operator o)
      [node a (.number (.integer v) f) [], node c (.number (.integer w) g) []]).truth σ =
        k.holds v w := by
  have houtcome : literalOutcome? o (node a (.number (.integer v) f) [])
      (node c (.number (.integer w) g) []) = some (k.holds v w) := by
    rw [literalOutcome?, ho]
    rfl
  cases o with
  | and | or => cases ho
  | _ => simp [truth, houtcome]

/-- **The early outcome of a condition on literals** is that of the condition read with signs. -/
theorem Ground.truth_eq {F : NodeId → Except Fault Format} {t : Tree} {f : NodeId → List NodeId}
    {q : Shape} {c : Condition} (hg : q.Ground) (hq : t.Displays f [q]) (hc : q.Asks F c)
    (σ : Truth) (val : NodeId → Word) : q.truth σ = c.holdsSigned (t.values val) := by
  have literal {i : NodeId} {w : Word} {g : Format} {X : List Shape}
      (hX : t.Displays f X) (hi : node i (.number (.integer w) g) [] ∈ subs X) :
      t.values val i = w := by
    have hkind : t.kind i = .number (.integer w) g := (hX _ hi).1
    rw [Tree.values, hkind]
  induction hc with
  | both _ _ ha hb | either _ _ ha hb =>
    cases hg with
    | comparison _ ho => cases ho
    | logical _ _ hl hr =>
      rw [truth, Condition.holdsSigned, ha hl (hq.part (by simp)), hb hr (hq.part (by simp))]
  | @compares i o a b k _ _ ho =>
    cases hg with
    | comparison _ _ a v f c w g =>
      have hv := literal hq (i := a) (w := v) (g := f) (by simp)
      have hw := literal hq (i := c) (w := w) (g := g) (by simp)
      rw [Condition.holdsSigned, id_node, id_node, hv, hw, truth_comparison ho]
    | logical _ hlog => exact absurd hlog (by cases o <;> first | decide | cases ho)
  | inside => cases hg
  | @nonzero i k cs g hk =>
    cases hg with
    | number _ w g =>
      have hw := literal hq (i := i) (w := w) (g := g) (by simp)
      simp [truth, Condition.holdsSigned, hw, Number.isZero, bne]
    | comparison _ ho =>
      simp [NodeKind.isTruth, NodeKind.isConnective, NodeKind.isComparison, ho] at hk
    | logical _ ho => simp [NodeKind.isTruth, NodeKind.isConnective, ho] at hk

/-- **The early outcome of a comparison of two words** is the one that its code finds, if signs do
not matter to the test that it is lowered to, and only then. -/
theorem outcome_iff {t : Tree} {i j a b : NodeId} {top : NodeKind} {X : List Shape}
    (h : t.Shows (.node i top X)) {o : Operator} {k : Comparison} {v w : Word} {f g : Format}
    (ho : Comparison.ofOperator? o = some k)
    (hs : node j (.operator o)
      [node a (.number (.integer v) f) [], node b (.number (.integer w) g) []] ∈ subs X) :
    t.outcome? i j = some (JumpTest.decides ⟨k, !(f.isUnsigned && g.isUnsigned)⟩ (v, w)) ↔
      JumpTest.Agrees ⟨k, !(f.isUnsigned && g.isUnsigned)⟩ v w := by
  have hstack {n : NodeId} {u : Word} {g : Format}
      (hn : node n (.number (.integer u) g) [] ∈ subs X) : t.isStackAddress i n = false := by
    have hkind : t.kind n = .number (.integer u) g := h.kind hn
    exact Ready.not_isStackAddress_of_kind (by rw [hkind]; rfl)
  have ha := hstack (subs_trans hs (c := node a (.number (.integer v) f) []) (by simp))
  have hb := hstack (subs_trans hs (c := node b (.number (.integer w) g) []) (by simp))
  have hcomparison : o.isComparison = true := by
    cases o <;> first | rfl | cases ho
  rw [h.outcome_eq hs (.inl hcomparison), Tree.comparesStackWithZero, id_node, id_node,
    ha, hb, Bool.and_false, Bool.and_false, Bool.or_self, Bool.and_false, if_neg Bool.false_ne_true]
  change Tree.decideNumbers? o (.integer v) (.integer w) = _ ↔ _
  rw [Tree.decideNumbers_words ho, Option.some_inj, ← JumpTest.decides_eq_iff, eq_comm]

end Shape

namespace Generating

variable {r : Routine} {q : Shape} {c : Condition} {success failure : Label} {next? : Option Label}

/-- **Code for a condition on literals** reaches the label of its early outcome, if signs do not
matter to its tests. -/
theorem exists_steps_ground (hl : r.tree.Linked r.tree.children)
    (hq : r.tree.Displays r.tree.children [q]) (hm : q.id < r.tree.size)
    (hc : q.Asks (r.tree.formatOf r.symbols) c) (hg : q.Ground) (hs : success < r.labels)
    (hf : failure < r.labels) (hn : ∀ l ∈ next?, l < r.labels) :
    ∃ steps r', Takes (simplifiedSteps q.id success failure next?) r steps r' ∧
      ∀ (val : NodeId → Word) (p : Word × Word) (σ : Truth), c.Agrees (r.tree.values val) →
        ∃ cs e, Step.Ends (Step.outcomes (r'.tree.values val)) p steps cs e ∧
          e.reached? next? = some (if q.truth σ then success else failure) := by
  obtain ⟨steps, r', h, hrun⟩ := exists_simplifiedSteps hl hq hm hc hs hf hn
  refine ⟨steps, r', h, fun val p σ ha => ?_⟩
  obtain ⟨cs, e, he, hr, -⟩ := hrun val p
  refine ⟨cs, e, he, ?_⟩
  rw [hg.truth_eq hq hc σ val, ← Condition.holds_eq_holdsSigned ha]
  exact hr

/-- **Literals are compared early as their code compares them**, as far as signs do not matter. A
comparison of two words has the outcome of the test that it is lowered to if signs do not matter to
that test, and only then. Conditions on literals are lowered to code that reaches the label of
their early outcome, if signs do not matter to any of their tests. -/
theorem literals_agree {i : NodeId} {top : NodeKind} {X : List Shape}
    (h : r.tree.Shows (.node i top X)) :
    (∀ (o : Operator) (k : Comparison) (j a b : NodeId) (v w : Word) (f g : Format),
      Comparison.ofOperator? o = some k →
      node j (.operator o)
        [node a (.number (.integer v) f) [], node b (.number (.integer w) g) []] ∈ subs X →
      (r.tree.outcome? i j = some (JumpTest.decides ⟨k, !(f.isUnsigned && g.isUnsigned)⟩ (v, w)) ↔
        JumpTest.Agrees ⟨k, !(f.isUnsigned && g.isUnsigned)⟩ v w)) ∧
    ∀ (q : Shape) (c : Condition) (success failure : Label) (next? : Option Label), q ∈ subs X →
      q.Asks (r.tree.formatOf r.symbols) c → q.Ground → success < r.labels → failure < r.labels →
      (∀ l ∈ next?, l < r.labels) →
      ∃ steps r', Takes (simplifiedSteps q.id success failure next?) r steps r' ∧
        ∀ (val : NodeId → Word) (p : Word × Word) (σ : Truth), c.Agrees (r.tree.values val) →
          ∃ cs e, Step.Ends (Step.outcomes (r'.tree.values val)) p steps cs e ∧
            e.reached? next? = some (if q.truth σ then success else failure) := by
  refine ⟨fun o k j a b v w f g ho hs => Shape.outcome_iff h ho hs, ?_⟩
  intro q c success failure next? hq hc hg hs hf hn
  obtain ⟨f, hforest, hd⟩ := h.displays
  obtain rfl : r.tree.children = f := funext hforest.linked.children
  have hparts : r.tree.Displays r.tree.children X := hd.parts (s := .node i top X) (by simp)
  have hshown : r.tree.Displays r.tree.children [q] :=
    Tree.Displays.cons.mpr ⟨hparts q hq, hparts.parts hq, by simp [Tree.Displays]⟩
  have hm : q.id < r.tree.size := h.lt_size (by
    rw [Shape.ids_cons]
    exact List.mem_cons_of_mem _ (List.mem_append_left _ (List.mem_map_of_mem hq)))
  exact exists_steps_ground hforest.linked hshown hm hc hg hs hf hn

/-- A routine before the comparison of two literals without signs. -/
def comparing : Routine :=
  { (default : Routine) with
    tree := (StateT.run (do
      let less ← Construct.operator .less (← Construct.create (.number (.integer 1) .u64) none)
        (← Construct.create (.number (.integer 2) .u64) none)
      Construct.node (.scope 1) [less] : Construct NodeId) .empty).run.2
    symbols := .start
    labels := 2 }

theorem literals_agree_comparing : comparing.tree.outcome? 3 2 = some true ∧
    ∃ steps r' cs e, Takes (simplifiedSteps 2 0 1 (some 0)) comparing steps r' ∧
      Step.Ends (Step.outcomes (r'.tree.values fun _ => 0)) (0, 0) steps cs e ∧
      e.reached? (some 0) = some 0 := by
  have hread : comparing.tree.isShown 5 (node 3 (.scope 1) [node 2 (.operator .less)
      [node 0 (.number (.integer 1) .u64) [], node 1 (.number (.integer 2) .u64) []]]) = true := by
    decide
  have hshown := Tree.shows_of_isShown hread
  obtain ⟨houtcome, hcode⟩ := literals_agree hshown
  have hearly := (houtcome .less .less 2 0 1 1 2 .u64 .u64 rfl (by simp)).mpr (by decide)
  refine ⟨hearly, ?_⟩
  obtain ⟨steps, r', ht, hrun⟩ := hcode (node 2 (.operator .less)
    [node 0 (.number (.integer 1) .u64) [], node 1 (.number (.integer 2) .u64) []])
    (.compares 0 1 ⟨.less, false⟩) 0 1 (some 0) (by simp)
    (.compares (f := .u64) (g := .u64) rfl rfl rfl rfl rfl) (.comparison 2 rfl 0 1 .u64 1 2 .u64)
    (by decide) (by decide) (by decide)
  obtain ⟨cs, e, he, hr⟩ := hrun (fun _ => 0) (0, 0) (fun _ => false)
    (show JumpTest.Agrees ⟨.less, false⟩ 1 2 by decide)
  exact ⟨steps, r', cs, e, ht, he, hr⟩

end Generating

end Codegen
