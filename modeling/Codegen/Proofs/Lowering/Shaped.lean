import Codegen.Proofs.Instruction.Jump
import Codegen.Proofs.Tree.Standing

/-!
# The lowering of a shape

What the lowering of a tree does is told by the shape that the tree shows: each construct is
lowered by the lowering of its parts and the few instructions of its own. The relation does not
mention the tree any more, so proofs about the stream need not know how it is read and changed.

* `Outlined`: the steps of a condition;
* `LowersPart`: **the lowering of a part**, given the lowering of the parts below it;
* `LowersWithin`, `Lowers`: the lowering of a part and all below it.
-/

namespace Codegen

open Generating

/-- A lowering of parts: the parts around one, the part, those that follow it below the same node,
the routine before, the value, and the routine behind. -/
abbrev PartLowering :=
  List Shape → Shape → List Shape → Routine → Option ValueId → Routine → Prop

namespace Shape

/-! ## Conditions -/

/-- The comparisons that a condition is made of, with the parts around them. -/
inductive Tests : List Shape → Shape → List Shape → Shape → Prop
  | here {path : List Shape} {q : Shape} (hk : q.kind.isConnective = false) : Tests path q path q
  | part {path path' : List Shape} {q c x : Shape} (hk : q.kind.isConnective = true)
      (hc : c ∈ q.parts) (h : Tests (q :: path) c path' x) : Tests path q path' x

theorem In.tests {W q x : Shape} {path path' : List Shape} (hq : W.In .condition path q)
    (h : Tests path q path' x) : W.In .condition path' x ∧ x.kind.isConnective = false := by
  induction h with
  | here hk => exact ⟨hq, hk⟩
  | part hk hc _ ih => exact ih (.part hq (by simp [places, hk, hc]))

theorem Tests.length_le {path path' : List Shape} {q x : Shape} (h : Tests path q path' x) :
    path.length < path'.length ∨ path' = path ∧ x = q := by
  induction h with
  | here _ => exact .inr ⟨rfl, rfl⟩
  | part _ _ _ ih =>
    rcases ih with ih | ⟨rfl, -⟩
    · exact .inl (Nat.lt_of_succ_lt ih)
    · exact .inl (Nat.lt_succ_self _)

/-- The left operand of a comparison; what is compared with zero is an operand itself. -/
def left? (x : Shape) : Option Shape := if x.kind.isComparison then x.parts.head? else some x

/-- Is a comparison of two nodes one of signed words? -/
def comparesSigned (t : Tree) (symbols : SymbolTable) (l m : Shape) : Except Fault Bool := do
  let l ← t.formatOf symbols l.id
  let m ← t.formatOf symbols m.id
  return !(l.isDecimal || m.isDecimal || (l.isUnsigned && m.isUnsigned))

/-- **The steps of a condition**, with the labels that they are given. -/
inductive Outlined (t : Tree) (symbols : SymbolTable) :
    Shape → Label → Label → Label → List Step → Label → Prop
  | logical {s l m : Shape} {o : Operator} {success failure next next₁ next₂ : Label}
      {first second : List Step} (hk : s.kind = .operator o) (ho : o.isLogical = true)
      (hl : s.parts.head? = some l) (hm : s.parts.getLast? = some m)
      (h₁ : Outlined t symbols l (if o = .and then next else success)
        (if o = .and then failure else next) (next + 1) first next₁)
      (h₂ : Outlined t symbols m success failure next₁ second next₂) :
      Outlined t symbols s success failure next (first ++ .label next :: second) next₂
  | comparison {s l m : Shape} {o : Operator} {success failure next : Label} {c : Comparison}
      {signed : Bool} (hk : s.kind = .operator o) (hc : Comparison.ofOperator? o = some c)
      (hl : s.parts.head? = some l) (hm : s.parts.getLast? = some m)
      (hs : comparesSigned t symbols l m = .ok signed) :
      Outlined t symbols s success failure next
        [.compare l.id m.id, .jump success (some ⟨c, signed⟩), .jump failure none] next
  | truth {s : Shape} {success failure next : Label} {z : NodeId} {signed : Bool}
      (hk : s.kind.isTruth = true) : Outlined t symbols s success failure next
        [.compare s.id z, .jump success (some ⟨.notEqual, signed⟩), .jump failure none] next
  | parenthesis {s m : Shape} {success failure next next₁ : Label} {steps : List Step}
      (hk : s.kind = .parenthesis) (hm : s.parts.getLast? = some m)
      (h : Outlined t symbols m success failure next steps next₁) :
      Outlined t symbols s success failure next steps next₁

section

variable {t : Tree} {symbols : SymbolTable} {q : Shape} {success failure next next' : Label}
variable {steps : List Step}

theorem Outlined.le (h : Outlined t symbols q success failure next steps next') :
    next ≤ next' := by
  induction h with
  | logical _ _ _ _ _ _ ih₁ ih₂ => exact Nat.le_trans (Nat.le_of_succ_le ih₁) ih₂
  | comparison | truth => exact Nat.le_refl _
  | parenthesis _ _ _ ih => exact ih

theorem Outlined.labels (h : Outlined t symbols q success failure next steps next') {l : Label}
    (hl : l ∈ Step.labels steps) : next ≤ l ∧ l < next' := by
  induction h with
  | logical _ _ _ _ h₁ h₂ ih₁ ih₂ =>
    have hle₁ := h₁.le
    have hle₂ := h₂.le
    simp only [Step.labels_append, Step.labels_cons_label, List.mem_append, List.mem_cons] at hl
    rcases hl with hl | rfl | hl
    · exact ⟨Nat.le_of_succ_le (ih₁ hl).1, Nat.lt_of_lt_of_le (ih₁ hl).2 hle₂⟩
    · exact ⟨Nat.le_refl _, Nat.lt_of_lt_of_le (Nat.lt_of_succ_le hle₁) hle₂⟩
    · exact ⟨Nat.le_trans (Nat.le_of_succ_le hle₁) (ih₂ hl).1, (ih₂ hl).2⟩
  | comparison | truth => simp at hl
  | parenthesis _ _ _ ih => exact ih hl

theorem Outlined.targets (h : Outlined t symbols q success failure next steps next') {l : Label}
    (hl : l ∈ Step.targets steps) : l = success ∨ l = failure ∨ next ≤ l ∧ l < next' := by
  induction h with
  | @logical s a b o success failure next next₁ next₂ first second _ _ _ _ h₁ h₂ ih₁ ih₂ =>
    have hle₁ : next < next₁ := Nat.lt_of_succ_le h₁.le
    have hle₂ := h₂.le
    simp only [Step.targets_append, Step.targets_cons_label, List.mem_append] at hl
    rcases hl with hl | hl
    · have fresh : l = next ∨ next + 1 ≤ l ∧ l < next₁ → next ≤ l ∧ l < next₂ := by
        rintro (rfl | ⟨h, h'⟩)
        · exact ⟨Nat.le_refl _, Nat.lt_of_lt_of_le hle₁ hle₂⟩
        · exact ⟨Nat.le_of_succ_le h, Nat.lt_of_lt_of_le h' hle₂⟩
      have hl := ih₁ hl
      split at hl <;> grind
    · exact (ih₂ hl).imp_right fun h => h.imp_right fun h =>
        ⟨Nat.le_trans (Nat.le_of_lt hle₁) h.1, h.2⟩
  | comparison | truth =>
    simp only [Step.targets_cons_compare, Step.targets_cons_jump, Step.targets_nil, List.mem_cons,
      List.not_mem_nil, or_false] at hl
    exact hl.imp_right .inl
  | parenthesis _ _ _ ih => exact ih hl

theorem Outlined.succeeds (h : Outlined t symbols q success failure next steps next') :
    ∃ test, .jump success (some test) ∈ steps := by
  induction h with
  | logical _ _ _ _ _ _ _ ih =>
    exact ih.imp fun _ h => List.mem_append_right _ (List.mem_cons_of_mem _ h)
  | comparison | truth => exact ⟨_, List.mem_cons_of_mem _ List.mem_cons_self⟩
  | parenthesis _ _ _ ih => exact ih

end

section

variable (t : Tree) (symbols : SymbolTable) (sub : PartLowering)

/-- The operands of a comparison, then the comparison; a single operand is compared with a
constant. -/
inductive ComparesParts (path : List Shape) (x : Shape) (r : Routine) : Routine → Prop
  | comparison {l m : Shape} {u v w : ValueId} {r₁ r₂ r' : Routine}
      (hk : x.kind.isComparison = true) (hl : x.parts.head? = some l)
      (hm : x.parts.getLast? = some m) (h₁ : sub (x :: path) l [] r (some u) r₁)
      (h₂ : sub (x :: path) m [] r₁ (some v) r₂)
      (h₃ : Takes (append (.compare u v) .i64) r₂ w r') : ComparesParts path x r r'
  | truth {n : Number} {f : Format} {u v w : ValueId} {r₁ r₂ r' : Routine}
      (hk : x.kind.isTruth = true) (h₁ : sub path x [] r (some u) r₁)
      (h₂ : Takes (create (.constant n) f) r₁ v r₂)
      (h₃ : Takes (append (.compare u v) .i64) r₂ w r') (hn : n.isZero = true) :
      ComparesParts path x r r'

/-- The steps of a condition in order. -/
inductive StepsOf (path : List Shape) (q : Shape) : List Step → Routine → Routine → Prop
  | nil {r : Routine} : StepsOf path q [] r r
  | compare {a b : NodeId} {path' : List Shape} {x l : Shape} {steps : List Step}
      {r r₁ r' : Routine} (hx : Tests path q path' x) (hl : x.left? = some l) (ha : a = l.id)
      (h : Bracketed (ComparesParts sub path' x) r r₁) (hs : StepsOf path q steps r₁ r') :
      StepsOf path q (.compare a b :: steps) r r'
  | jump {l : Label} {test : Option JumpTest} {steps : List Step} {r r₁ r' : Routine}
      (h : Takes (appendJump l test) r () r₁) (hs : StepsOf path q steps r₁ r') :
      StepsOf path q (.jump l test :: steps) r r'
  | label {l : Label} {steps : List Step} {r r₁ r' : Routine}
      (h : Takes (appendLabel l) r () r₁) (hs : StepsOf path q steps r₁ r') :
      StepsOf path q (.label l :: steps) r r'

/-- A condition, simplified, with the label that follows it. -/
def ConditionOf (path : List Shape) (q : Shape) (success failure next : Label)
    (r r' : Routine) : Prop :=
  ∃ steps labels tree, Outlined t symbols q success failure r.labels steps labels ∧
    StepsOf sub path q (Step.simplify (steps ++ [.label next])) { r with labels, tree } r'

/-! ## Lists of parts -/

/-- Parts lowered in order for what they do, in front of other parts. -/
inductive EachPart (path rest : List Shape) : List Shape → Routine → Routine → Prop
  | nil {r : Routine} : EachPart path rest [] r r
  | cons {s : Shape} {ss : List Shape} {x? : Option ValueId} {r r₁ r' : Routine}
      (h : sub path s (ss ++ rest) r x? r₁) (hs : EachPart path rest ss r₁ r') :
      EachPart path rest (s :: ss) r r'

/-- The values of parts, from the first to the last. -/
inductive AllParts (path : List Shape) : List Shape → Routine → List ValueId → Routine → Prop
  | nil {r : Routine} : AllParts path [] r [] r
  | cons {s : Shape} {ss : List Shape} {x : ValueId} {xs : List ValueId} {r r₁ r' : Routine}
      (h : sub path s [] r (some x) r₁) (hs : AllParts path ss r₁ xs r') :
      AllParts path (s :: ss) r (x :: xs) r'

/-- Statements in order; the later branches of a chain are left out. -/
inductive StatedParts (path : List Shape) : Option ValueId → List Shape → Routine →
    Option ValueId → Routine → Prop
  | nil {x? : Option ValueId} {r : Routine} : StatedParts path x? [] r x? r
  | skip {s : Shape} {ss : List Shape} {x? y? : Option ValueId} {r r' : Routine}
      (hk : s.kind.isAlternative = true) (hs : StatedParts path x? ss r y? r') :
      StatedParts path x? (s :: ss) r y? r'
  | cons {s : Shape} {ss : List Shape} {x? y? z? : Option ValueId} {r r₁ r' : Routine}
      (hk : s.kind.isAlternative = false) (h : sub path s ss r y? r₁)
      (hs : StatedParts path y? ss r₁ z? r') : StatedParts path x? (s :: ss) r z? r'

/-- The first of some parts, if there is one. -/
inductive FirstPart (path : List Shape) : List Shape → Routine → Routine → Prop
  | nil {r : Routine} : FirstPart path [] r r
  | cons {s : Shape} {ss : List Shape} {x? : Option ValueId} {r r' : Routine}
      (h : sub path s ss r x? r') : FirstPart path (s :: ss) r r'

/-! ## Branches -/

/-- The test of a branch or a loop and the statements before it. The labels of its outcomes and the
label that follows it depend on a fresh one. -/
def TestOf (path : List Shape) (s : Shape) (labels : Label → Label × Label × Label)
    (r r' : Routine) : Prop :=
  ∃ c cs q r₁, s.scope? = some c ∧ c.parts = cs ++ [q] ∧
    EachPart sub (c :: s :: path) [q] cs r r₁ ∧
    ConditionOf t symbols sub (c :: s :: path) q (labels r₁.labels).1 (labels r₁.labels).2.1
      (labels r₁.labels).2.2 { r₁ with labels := r₁.labels + 1 } r'

/-- The body of a branch. -/
def BranchBody (path : List Shape) (s : Shape) (r r' : Routine) : Prop :=
  ∃ b bs r₁, s.bodyOn = b :: bs ∧
    Bracketed (fun r r' => ∃ x?, sub (s :: path) b bs r x? r') r r₁ ∧ Prepared r.bindings r₁ r'

/-- A branch: its test, if it has one, and its body. -/
def BranchOf (path : List Shape) (s : Shape) (failure : Label) (r r' : Routine) : Prop :=
  ∃ r₁, ((s.kind.isConditional = true ∧
      TestOf t symbols sub path s (fun l => (l, failure, l)) r r₁) ∨
      s.kind.isConditional = false ∧ r₁ = r) ∧ BranchBody sub path s r₁ r'

/-- The branches of a chain, each but the last with a jump to the end behind it. -/
inductive BranchesOf (path : List Shape) (stop : Label) : List Shape → Routine → Routine → Prop
  | last {s : Shape} {r r' : Routine} (h : BranchOf t symbols sub path s stop r r') :
      BranchesOf path stop [s] r r'
  | cons {s b : Shape} {bs : List Shape} {r r₁ r₂ r₃ r' : Routine}
      (h : BranchOf t symbols sub path s r.labels { r with labels := r.labels + 1 } r₁)
      (hj : Takes (appendJump stop none) r₁ () r₂) (hl : Takes (appendLabel r.labels) r₂ () r₃)
      (hs : BranchesOf path stop (b :: bs) r₃ r') : BranchesOf path stop (s :: b :: bs) r r'

/-! ## Loops -/

/-- One round of a loop with a condition, from the label of its start to the reads behind its
test. -/
def RoundOf (path : List Shape) (s : Shape) (start stop : Label) (actives : List Binding)
    (r r' : Routine) : Prop :=
  ∃ r₁ symmetry r₂ b bs x? r₃ r₄ r₅ r₆, Takes (appendLabel start) r () r₁ ∧
    Takes (openSymmetry s.id start stop actives) r₁ symmetry r₂ ∧
    s.bodyOn = b :: bs ∧ sub (s :: path) b bs r₂ x? r₃ ∧
    FirstPart sub (s :: path) (s.parts.drop 2) r₃ r₄ ∧
    Takes (closeSymmetry symmetry actives) r₄ () r₅ ∧
    TestOf t symbols sub path s (fun exit => (start, exit, exit)) r₅ r₆ ∧
    Takes (keepAlive actives) r₆ () r'

/-- A loop with a condition. -/
def PretestedOf (path : List Shape) (s : Shape) (r r' : Routine) : Prop :=
  ∃ r₁ r₂ r₃ save r₄ r₅ r₆ j,
    FirstPart sub (s :: path) s.parts { r with labels := r.labels + 2 } r₁ ∧
    (∀ actives, Prepared actives r₁ r₂) ∧
    TestOf t symbols sub path s (fun enter => (enter, r.labels + 1, enter)) r₂ r₃ ∧
    Takes (appendMarker .saveState) r₃ save r₄ ∧
    RoundOf t symbols sub path s r.labels (r.labels + 1) r₄.bindings
      { r₄ with regions := ⟨r₄.bindings, none⟩ :: r₄.regions } r₅ ∧
    Takes (appendLabel (r.labels + 1)) { r₅ with regions := r₅.regions.tail } () r₆ ∧
    Takes (appendMarker (.restoreState save)) r₆ j r'

/-- One round of an endless loop. -/
def EndlessRoundOf (path : List Shape) (s : Shape) (round exit : Label) (actives : List Binding)
    (r r' : Routine) : Prop :=
  ∃ r₁ symmetry r₂ b bs x? r₃, Takes (appendLabel round) r () r₁ ∧
    Takes (openSymmetry s.id round exit actives) r₁ symmetry r₂ ∧
    s.bodyOn = b :: bs ∧ sub (s :: path) b bs r₂ x? r₃ ∧
    Takes (closeSymmetry symmetry actives) r₃ () r'

/-- An endless loop. -/
def ForeverOf (path : List Shape) (s : Shape) (r r' : Routine) : Prop :=
  ∃ r₁ save r₂ r₃ r₄ r₅ r₆ j, (∀ actives, Prepared actives r r₁) ∧
    Takes (appendMarker .saveState) r₁ save r₂ ∧
    Takes (appendLabel r₂.labels) { r₂ with labels := r₂.labels + 2 } () r₃ ∧
    EndlessRoundOf sub path s r₃.labels (r₂.labels + 1) r₃.bindings
      { r₃ with
        labels := r₃.labels + 1
        regions := ⟨r₃.bindings, none⟩ :: r₃.regions } r₄ ∧
    Takes (appendJump r₃.labels none) { r₄ with regions := r₄.regions.tail } () r₅ ∧
    Takes (appendMarker (.restoreState save)) r₅ j r₆ ∧
    Takes (appendLabel (r₂.labels + 1)) r₆ () r'

/-- A statement that leaves or restarts the innermost loop around it. -/
def ControlOf (path : List Shape) (control : LoopControl) (r r' : Routine) : Prop :=
  ∃ loop record save r₁ i r₂ r₃ j, path.find? (·.kind.isLoop) = some loop ∧
    r.loops.lookup loop.id = some record ∧ Takes (appendMarker .saveState) r save r₁ ∧
    Takes (appendMarker (.symmetryEnd record.symmetry (pairsOf r.bindings record.actives)))
      r₁ i r₂ ∧
    Takes (appendJump (record.target control) none) r₂ () r₃ ∧
    Takes (appendMarker (.restoreState save)) r₃ j r'

/-! ## Parts -/

/-- **The lowering of a part by its construct**, given the lowering of the parts below it. -/
inductive LowersPart (path : List Shape) (s : Shape) (ss : List Shape) (r : Routine) :
    Option ValueId → Routine → Prop
  | statements {x? : Option ValueId} {r' : Routine}
      (hk : (∃ c, s.kind = .scope c) ∨ s.kind = .parenthesis)
      (h : StatedParts sub (s :: path) none s.parts r x? r') : LowersPart path s ss r x? r'
  | number {v : Number} {f : Format} {x : ValueId} {r' : Routine} (hk : s.kind = .number v f)
      (h : Takes (create (.constant v) f) r x r') : LowersPart path s ss r (some x) r'
  | reference {v : VariableId} {x : ValueId} {r' : Routine} (hk : s.kind = .reference v)
      (h : Takes (valueOf v) r x r') : LowersPart path s ss r (some x) r'
  | arithmetic {o : Operator} {l m : Shape} {x y z : ValueId} {r₁ r₂ r' : Routine}
      (hk : s.kind = .operator o) (ho : o.category = .classic) (hl : s.parts.head? = some l)
      (hm : s.parts.getLast? = some m) (h₁ : sub (s :: path) l [] r (some x) r₁)
      (h₂ : sub (s :: path) m [] r₁ (some y) r₂)
      (h₃ : Operated o x y r₂ z r') : LowersPart path s ss r (some z) r'
  | binding {o : Operator} {l m : Shape} {v : VariableId} {x z : ValueId} {r₁ r₂ r' : Routine}
      (hk : s.kind = .operator o) (ho : o.category = .assign) (hl : s.parts.head? = some l)
      (hv : l.kind = .reference v) (hm : s.parts.getLast? = some m)
      (h₁ : sub (s :: path) m [] r (some x) r₁) (h₂ : Copied x r₁ z r₂)
      (h₃ : Takes (bind v z) r₂ () r') : LowersPart path s ss r (some z) r'
  | store {o : Operator} {l m : Shape} {x z w : ValueId} {f : Format} {r₁ r₂ r' : Routine}
      (hk : s.kind = .operator o) (ho : o.category = .assign) (hl : s.parts.head? = some l)
      (hv : l.kind = .link ∨ l.kind = .offset) (hm : s.parts.getLast? = some m)
      (h₁ : sub (s :: path) l [] r (some x) r₁) (h₂ : sub (s :: path) m [] r₁ (some z) r₂)
      (h₃ : Takes (append (.move x z) f) r₂ w r') : LowersPart path s ss r (some z) r'
  | link {l m : Shape} {v : VariableId} {x z : ValueId} {offset : Word} {f : Format}
      {r₁ r' : Routine} (hk : s.kind = .link) (hl : s.parts.head? = some l)
      (h₁ : sub (s :: path) l [] r (some x) r₁)
      (h₂ : Takes (append (.getObjectPointer x offset) f) r₁ z r')
      (hm : s.parts.getLast? = some m) (hv : m.kind = .reference v)
      (ho : MemberAt symbols v offset) : LowersPart path s ss r (some z) r'
  | offset {l m : Shape} {x y z : ValueId} {f : Format} {r₁ r₂ r' : Routine}
      (hk : s.kind = .offset) (hl : s.parts.head? = some l) (hm : s.parts.getLast? = some m)
      (h₁ : sub (s :: path) l [] r (some x) r₁) (h₂ : sub (s :: path) m [] r₁ (some y) r₂)
      (h₃ : Takes (append (.getMemoryAddress x y elementStride) f) r₂ z r') :
      LowersPart path s ss r (some z) r'
  | call {g : FunctionId} {xs : List ValueId} {w z : ValueId} {symbol : String} {f : Format}
      {r₁ r₂ r' : Routine} (hk : s.kind = .call g)
      (h₁ : AllParts sub (s :: path) s.parts r xs r₁) (h₂ : Takes (append .evacuate .i64) r₁ w r₂)
      (hs : symbols.symbol g = .ok symbol) (h₃ : Takes (append (.call symbol xs) f) r₂ z r') :
      LowersPart path s ss r (some z) r'
  | chain {c : ContextId} {i : Nat} {r₁ r₂ r₃ r' : Routine} (hk : s.kind = .ifBranch c)
      (h₁ : ∀ actives, Prepared actives r r₁)
      (h₂ : Takes (appendMarker (.branch ((s :: followers s.kind ss).map (·.id)))) r₁ i r₂)
      (h₃ : BranchesOf t symbols sub path r₂.labels (s :: followers s.kind ss)
        { r₂ with labels := r₂.labels + 1 } r₃)
      (h₄ : Takes (appendLabel r₂.labels) r₃ () r') : LowersPart path s ss r none r'
  | forever {c : ContextId} {r' : Routine} (hk : s.kind = .loop c true)
      (hp : ∀ p ∈ path, s.id ≠ p.id) (h : ForeverOf sub path s r r') :
      LowersPart path s ss r none r'
  | pretested {c : ContextId} {r' : Routine} (hk : s.kind = .loop c false)
      (hp : ∀ p ∈ path, s.id ≠ p.id) (h : PretestedOf t symbols sub path s r r') :
      LowersPart path s ss r none r'
  | control {c : LoopControl} {r' : Routine} (hk : s.kind = .control c)
      (h : ControlOf path c r r') : LowersPart path s ss r none r'
  | ret {w : ValueId} {r' : Routine} (hk : s.kind = .ret) (hs : s.parts = [])
      (h : Takes (append (.ret none) .i64) r w r') : LowersPart path s ss r none r'
  | retValue {l : Shape} {x y w : ValueId} {r₁ r₂ r' : Routine} (hk : s.kind = .ret)
      (hl : s.parts.head? = some l) (h₁ : sub (s :: path) l [] r (some x) r₁)
      (h₂ : Copied x r₁ y r₂) (h₃ : Takes (append (.ret (some y)) .i64) r₂ w r') :
      LowersPart path s ss r none r'
  | stackAddress {identity : String} {bytes : Nat} {i : TypeId} {x : ValueId} {r' : Routine}
      (hk : s.kind = .stackAddress identity bytes i)
      (h : Takes (append (.allocateStack (r.symbol ++ s!"_S{r.identities}") bytes) .u64)
        { r with identities := r.identities + 1 } x r') : LowersPart path s ss r (some x) r'

/-- The lowering of a part that is no deeper than that. -/
def LowersWithin : Nat → PartLowering
  | 0 => fun _ _ _ _ _ _ => False
  | fuel + 1 => LowersPart t symbols (LowersWithin fuel)

end

end Shape

end Codegen
