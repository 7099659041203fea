import Mathlib.Logic.Function.Basic
import Mathlib.Logic.Relation
import Codegen.Proofs.Evaluation.Meaning
import Codegen.Tree.Construct

/-!
# Addresses on the stack that are compared with zero

A comparison of zero with an address on the stack is decided before the program runs. The address
is looked for behind parentheses, and behind variables that are assigned once, wherever the
assignment is. So what counts is what variables may hold in any order of the assignments: flow of
control can only restrict it.

* `Tree.Gives`, `Tree.Arises`: **the words that nodes and variables may have**;
* `Tree.Traces`, `Tree.Addresses`: what is traced from a node, and nodes that lead to an address;
* `Arises.sourced`: a variable that is no parameter and leads to an address is not zero;
* `Tree.ne_zero_iff`: **what is traced to an address is never zero**, unless a parameter is traced;
* `Tree.holds_of_outcome`: **the early outcome of a comparison** is right for all words that are
  compared.
-/

namespace Codegen.Tree

/-- The words of variables, of those that have one. -/
abbrev Store := VariableId → Option Word

variable {t : Tree} {root n m l r : NodeId} {σ τ : Store} {parameters : List VariableId}
variable {v : VariableId} {w x y : Word}

/-! ## Words of nodes and variables -/

/-- **The words that a node may have**, given those of the variables. Decimals have none, and all
that is neither a literal nor traced may have any. -/
inductive Gives (t : Tree) (σ : Store) : NodeId → Word → Prop
  | number {n : NodeId} {w : Word} {g : Format} (hk : t.kind n = .number (.integer w) g) :
      Gives t σ n w
  | reference {n : NodeId} {v : VariableId} {w : Word} (hk : t.kind n = .reference v)
      (hv : σ v = some w) : Gives t σ n w
  | parenthesis {n m : NodeId} {w : Word} (hk : t.kind n = .parenthesis) (hm : t.last? n = some m)
      (h : Gives t σ m w) : Gives t σ n w
  | stackAddress {n : NodeId} {b : String} {k : Nat} {i : TypeId} {w : Word}
      (hk : t.kind n = .stackAddress b k i) (hw : w ≠ 0) : Gives t σ n w
  | other {n : NodeId} (w : Word) (ha : (t.kind n).mayBeAddress = false)
      (hn : (t.kind n).isNumber = false) : Gives t σ n w

/-- **The words that variables may have**: at first the parameters have one each, then assignments
below the root follow in any order. -/
inductive Arises (t : Tree) (root : NodeId) (parameters : List VariableId) : Store → Prop
  | start {σ : Store} (h : ∀ v, (σ v).isSome ↔ v ∈ parameters) : Arises t root parameters σ
  | assign {σ : Store} {a m : NodeId} {v : VariableId} {w : Word}
      (h : Arises t root parameters σ) (ha : a ∈ t.assignmentsTo root v) (hm : t.last? a = some m)
      (hw : t.Gives σ m w) : Arises t root parameters (Function.update σ v (some w))

/-! ## Traces -/

/-- The second node is traced from the first one. -/
def Traces (t : Tree) (root : NodeId) : NodeId → NodeId → Prop :=
  Relation.ReflTransGen fun n m => t.sourceStep? root n = some m

/-- **The node leads to an address on the stack**, and to no parameter on the way. -/
inductive Addresses (t : Tree) (root : NodeId) (parameters : List VariableId) : NodeId → Prop
  | address {n : NodeId} {b : String} {k : Nat} {i : TypeId} (hk : t.kind n = .stackAddress b k i) :
      Addresses t root parameters n
  | step {n m : NodeId} (hm : t.sourceStep? root n = some m)
      (hp : ∀ v, t.kind n = .reference v → v ∉ parameters) (h : Addresses t root parameters m) :
      Addresses t root parameters n

/-- One step goes into a parenthesis, or to the value of the only assignment to a variable. -/
theorem sourceStep_cases (h : t.sourceStep? root n = some m) :
    t.kind n = .parenthesis ∧ t.last? n = some m ∨
      ∃ v a, t.kind n = .reference v ∧ t.assignmentsTo root v = [a] ∧ t.last? a = some m := by
  rw [sourceStep?] at h
  split at h
  next hk => exact .inl ⟨hk, h⟩
  next v hk =>
    split at h
    next a ha => exact .inr ⟨v, a, hk, ha, (Option.filter_eq_some_iff.mp h).1⟩
    next => cases h
  next => cases h

theorem Addresses.mayBeAddress (h : t.Addresses root parameters n) :
    (t.kind n).mayBeAddress = true := by
  cases h with
  | address hk =>
    rw [hk]
    rfl
  | step hm =>
    rcases sourceStep_cases hm with ⟨hk, -⟩ | ⟨v, a, hk, -⟩ <;> rw [hk] <;> rfl

theorem isStackAddress_iff : t.isStackAddress root n = true ↔
    ∃ b k i, t.kind (t.sourceOf root n) = .stackAddress b k i := by
  rw [isStackAddress]
  split <;> simp_all

theorem addresses_of_isStackAddress (h : t.isStackAddress root n = true)
    (hp : ∀ m v, t.Traces root n m → t.kind m = .reference v → v ∉ parameters) :
    t.Addresses root parameters n := by
  rw [isStackAddress_iff, sourceOf] at h
  obtain ⟨b, k, i, h⟩ := h
  generalize t.size = fuel at h
  induction fuel generalizing n with
  | zero => exact .address h
  | succ fuel ih =>
    rw [sourceWithin] at h
    cases hm : t.sourceStep? root n with
    | none =>
      rw [hm] at h
      exact .address h
    | some m =>
      rw [hm] at h
      exact .step hm (fun v hk => hp n v .refl hk) (ih (fun m' v hm' => hp m' v (.head hm hm')) h)

/-! ## Addresses are not zero -/

/-- A variable that is no parameter has no zero, if the value of its only assignment leads to an
address. -/
def Sourced (t : Tree) (root : NodeId) (parameters : List VariableId) (σ : Store) : Prop :=
  ∀ v a m w, v ∉ parameters → t.assignmentsTo root v = [a] → t.last? a = some m →
    t.Addresses root parameters m → σ v = some w → w ≠ 0

theorem Gives.ne_zero (h : t.Gives σ n w) (hσ : t.Sourced root parameters σ)
    (hn : t.Addresses root parameters n) : w ≠ 0 := by
  have hkind := hn.mayBeAddress
  induction h with
  | number hk => simp [hk, NodeKind.mayBeAddress] at hkind
  | reference hk hv =>
    cases hn with
    | address hk' => cases hk.symm.trans hk'
    | step hm hp ha =>
      rcases sourceStep_cases hm with ⟨hk', -⟩ | ⟨v, a, hk', hone, hlast⟩
      · cases hk.symm.trans hk'
      · cases hk.symm.trans hk'
        exact hσ _ a _ _ (hp _ hk) hone hlast ha hv
  | parenthesis hk hm _ ih =>
    cases hn with
    | address hk' => cases hk.symm.trans hk'
    | step hm' _ ha =>
      rcases sourceStep_cases hm' with ⟨-, hlast⟩ | ⟨v, a, hk', -⟩
      · cases hm.symm.trans hlast
        exact ih ha ha.mayBeAddress
      · cases hk.symm.trans hk'
  | stackAddress _ hw => exact hw
  | other w hk => cases hk.symm.trans hkind

/-- **No assignment makes a variable zero** that leads to an address. -/
theorem Arises.sourced (h : t.Arises root parameters σ) : t.Sourced root parameters σ := by
  induction h with
  | start h =>
    intro v a m w hv _ _ _ hw
    exact absurd ((h v).mp (hw ▸ rfl)) hv
  | @assign σ a' m' u w' _ ha hm hw ih =>
    intro v a m w hv hone hlast hsource hw'
    by_cases hvu : v = u
    · -- the assignment is the only one to the variable, so its value leads to the address
      subst hvu
      rw [Function.update_self] at hw'
      obtain rfl := Option.some.inj hw'
      rw [hone, List.mem_singleton] at ha
      subst ha
      cases hm.symm.trans hlast
      exact hw.ne_zero ih hsource
    · rw [Function.update_of_ne hvu] at hw'
      exact ih v a m w hv hone hlast hsource hw'

/-- A parameter may be zero, and so may what is traced to it. -/
theorem exists_zero (h : t.Traces root n m) (hk : t.kind m = .reference v) (hv : v ∈ parameters) :
    ∃ σ, t.Arises root parameters σ ∧ t.Gives σ n 0 := by
  induction h using Relation.ReflTransGen.head_induction_on with
  | refl =>
    refine ⟨fun u => if u ∈ parameters then some 0 else none, .start fun u => ?_,
      .reference hk (if_pos hv)⟩
    split <;> simp_all
  | head hm _ ih =>
    obtain ⟨σ, hσ, hg⟩ := ih
    rcases sourceStep_cases hm with ⟨hk', hlast⟩ | ⟨u, a, hk', hone, hlast⟩
    · exact ⟨σ, hσ, .parenthesis hk' hlast hg⟩
    · exact ⟨_, hσ.assign (hone ▸ List.mem_singleton_self a) hlast hg,
        .reference hk' (Function.update_self ..)⟩

/-- **What is traced to an address on the stack is never zero** if no parameter is traced, and only
then. -/
theorem ne_zero_iff (h : t.isStackAddress root n = true) :
    (∀ σ w, t.Arises root parameters σ → t.Gives σ n w → w ≠ 0) ↔
      ∀ m v, t.Traces root n m → t.kind m = .reference v → v ∉ parameters := by
  refine ⟨fun hne m v hm hk hv => ?_, fun hp σ w hσ hw => ?_⟩
  · obtain ⟨σ, hσ, hg⟩ := exists_zero hm hk hv
    exact hne σ 0 hσ hg rfl
  · exact hw.ne_zero hσ.sourced (addresses_of_isStackAddress h hp)

/-! ## Comparisons -/

theorem Gives.number_eq {z : Number} (h : t.Gives σ n w) (hz : (t.kind n).number? = some z) :
    z = .integer w := by
  cases h with
  | number hk =>
    rw [hk] at hz
    exact (Option.some.inj hz).symm
  | reference hk | parenthesis hk | stackAddress hk =>
    rw [hk] at hz
    cases hz
  | other _ _ hn =>
    cases hk : t.kind n with
    | number =>
      rw [hk] at hn
      cases hn
    | _ =>
      rw [hk] at hz
      cases hz

theorem Gives.zero_eq (h : t.Gives σ n w) (hz : t.isZeroLiteral n = true) : w = 0 := by
  obtain ⟨z, hnumber, hzero⟩ := Option.any_eq_true _ _ |>.mp hz
  rw [h.number_eq hnumber] at hzero
  exact beq_iff_eq.mp hzero

theorem decideNumbers_words {o : Operator} {c : Comparison} (ho : Comparison.ofOperator? o = some c)
    (x y : Word) : decideNumbers? o (.integer x) (.integer y) = some (c.holds x y) := by
  cases o with
  | and | or => cases ho
  | _ => simp [decideNumbers?, ho, Comparison.holdsNumber]

theorem holds_zero {o : Operator} {c : Comparison} (ho : Comparison.ofOperator? o = some c)
    (he : o = .equals ∨ o = .notEquals) (hw : w ≠ 0) :
    c.holds 0 w = (o == .notEquals) ∧ c.holds w 0 = (o == .notEquals) := by
  rcases he with rfl | rfl <;> cases ho <;> simp [Comparison.holds, hw, hw.symm]

/-- **The early outcome of a comparison** is right for all words that its operands may have, at
whatever time each of them is looked at, unless a parameter is traced from one of them. -/
theorem holds_of_outcome {o : Operator} {c : Comparison} {b : Bool} (hk : t.kind n = .operator o)
    (ho : Comparison.ofOperator? o = some c) (hl : t.first? n = some l) (hr : t.last? n = some r)
    (hb : t.outcome? root n = some b)
    (hp : ∀ i ∈ [l, r], ∀ m v, t.Traces root i m → t.kind m = .reference v → v ∉ parameters)
    (hσ : t.Arises root parameters σ) (hx : t.Gives σ l x) (hτ : t.Arises root parameters τ)
    (hy : t.Gives τ r y) : c.holds x y = b := by
  rw [outcome?, hk, hl, hr] at hb
  change (if _ then none else if t.comparesStackWithZero root o l r then _ else _) = _ at hb
  split at hb
  next => cases hb
  split at hb
  next hstack =>
    cases hb
    simp only [comparesStackWithZero, Bool.and_eq_true, Bool.or_eq_true, beq_iff_eq] at hstack
    obtain ⟨he, ⟨hz, hs⟩ | ⟨hz, hs⟩⟩ := hstack
    · have hne := (ne_zero_iff hs).mpr (hp r (by simp)) τ y hτ hy
      rw [hx.zero_eq hz]
      exact (holds_zero ho he hne).1
    · have hne := (ne_zero_iff hs).mpr (hp l (by simp)) σ x hσ hx
      rw [hy.zero_eq hz]
      exact (holds_zero ho he hne).2
  next =>
    obtain ⟨p, hl, hb⟩ := Option.bind_eq_some_iff.mp hb
    obtain ⟨q, hr, hb⟩ := Option.bind_eq_some_iff.mp hb
    rw [hx.number_eq hl, hy.number_eq hr, decideNumbers_words ho] at hb
    exact Option.some.inj hb

/-- An address is assigned to the first variable, which is compared with zero. -/
def addressed : Tree :=
  (StateT.run (do
    let assignment ← Construct.operator .assign (← Construct.create (.reference 0) none)
      (← Construct.create (.stackAddress "b" 8 6) none)
    let test ← Construct.operator .equals (← Construct.create (.reference 0) none)
      (← Construct.create (.number (.integer 0) .i64) none)
    Construct.node (.scope 1) [assignment, test] : Construct NodeId) .empty).run.2

/-- The outcome is right for the address 8, and whatever the parameter is. -/
theorem holds_of_outcome_addressed :
    addressed.outcome? 6 5 = some false ∧
      addressed.Arises 6 [1]
        (Function.update (fun v => if v = 1 then some 0 else none) 0 (some 8)) ∧
      Comparison.equal.holds 8 0 = false := by
  have houtcome : addressed.outcome? 6 5 = some false := by decide
  have hstart : addressed.Arises 6 [1] fun v => if v = 1 then some 0 else none :=
    .start fun v => by by_cases hv : v = 1 <;> simp [hv]
  have haddress : (8 : Word) ≠ 0 := by decide
  have hσ := hstart.assign (v := 0) (a := 2) (by decide) (by decide)
    (.stackAddress (n := 1) (b := "b") (k := 8) (i := 6) (by decide) haddress)
  have htraced : ∀ i ∈ [3, 4], ∀ m v, addressed.Traces 6 i m → addressed.kind m = .reference v →
      v ∉ [1] := by
    intro _ _ m v _ hk
    match m with
    | 0 | 3 =>
      cases hk
      decide
    | 1 | 2 | 4 | 5 | 6 | m + 7 => cases hk
  exact ⟨houtcome, hσ, holds_of_outcome (o := .equals) (by decide) rfl (by decide) (by decide)
    houtcome htraced hσ (.reference (v := 0) (by decide) (by simp)) hσ
    (.number (g := .i64) (by decide))⟩

/-- The first variable is compared with zero before an address is assigned to it. If it is a
parameter, the outcome is wrong for the argument zero. -/
example : (StateT.run (do
    let test ← Construct.operator .equals (← Construct.create (.reference 0) none)
      (← Construct.create (.number (.integer 0) .i64) none)
    let assignment ← Construct.operator .assign (← Construct.create (.reference 0) none)
      (← Construct.create (.stackAddress "b" 8 6) none)
    let body ← Construct.node (.scope 1) [test, assignment]
    return (← get).outcome? body test : Construct (Option Bool)) .empty).run.1 = some false := by
  decide

end Codegen.Tree
