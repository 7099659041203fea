import Codegen.Proofs.Control.Structured

/-!
# What the steps of a condition do

The steps of a condition jump forward only, so they are followed once from the first to the last. A
jump leads to its label if this comes later in the list, and out of the list otherwise.

* `Step.follow`: what steps do, and where they lead;
* `Step.follow_simplify`: **simplified steps do the same**;
* `Shape.Outlined.follow`: **the steps of a condition test it**.
-/

namespace Codegen

open Exec

namespace Step

variable {o : Oracle} {operands : NodeId → Exec Unit} {l? : Option Label} {l m : Label}
variable {s : Step} {a b : NodeId} {test : Option JumpTest} {xs ys rest : List Step} {h : History}

/-- What steps do from the first one or, behind a jump, from the label on that it leads to. It gives
the label if it is not among the steps. What a comparison and its operands do is told by the first
of them. -/
def follow (o : Oracle) (operands : NodeId → Exec Unit) :
    Option Label → List Step → Exec (Option Label)
  | l?, [] => pure l?
  | l?, s :: rest =>
    match l?, s with
    | none, .compare a _ => do
      operands a
      follow o operands none rest
    | none, .jump l test => fun h =>
      follow o operands (if isTaken o h.comparisons test then some l else none) rest h
    | none, .label _ => follow o operands none rest
    | some l, .label m => follow o operands (if l = m then none else some l) rest
    | some l, _ => follow o operands (some l) rest

theorem follow_compare :
    follow o operands none (.compare a b :: rest) =
      (do operands a; follow o operands none rest) := rfl

theorem follow_jump :
    follow o operands none (.jump l test :: rest) h =
      follow o operands (if isTaken o h.comparisons test then some l else none) rest h := rfl

theorem follow_jump_none :
    follow o operands none (.jump l none :: rest) = follow o operands (some l) rest := rfl

theorem follow_label :
    follow o operands none (.label m :: rest) = follow o operands none rest := rfl

theorem follow_skip_compare :
    follow o operands (some l) (.compare a b :: rest) = follow o operands (some l) rest := rfl

theorem follow_skip_jump :
    follow o operands (some l) (.jump m test :: rest) = follow o operands (some l) rest := rfl

theorem follow_to_label :
    follow o operands (some l) (.label m :: rest) =
      follow o operands (if l = m then none else some l) rest := rfl

theorem follow_arrive :
    follow o operands (some l) (.label l :: rest) = follow o operands none rest := by
  rw [follow_to_label, if_pos rfl]

theorem follow_skip_label (hl : l ≠ m) :
    follow o operands (some l) (.label m :: rest) = follow o operands (some l) rest := by
  rw [follow_to_label, if_neg hl]

theorem follow_test {test : JumpTest} :
    follow o operands none (.jump l (some test) :: rest) h =
      bif test.decides (o.last h.comparisons) then follow o operands (some l) rest h
      else follow o operands none rest h := by
  rw [follow_jump, isTaken, Option.all_some]
  cases test.decides (o.last h.comparisons) <;> rfl

theorem follow_cons_congr (h : ∀ l?, follow o operands l? xs = follow o operands l? ys) :
    follow o operands l? (s :: xs) = follow o operands l? (s :: ys) := by
  cases l? with
  | none =>
    cases s with
    | compare a b => rw [follow_compare, follow_compare, h]
    | jump l test =>
      funext h'
      rw [follow_jump, follow_jump, h]
    | label m => rw [follow_label, follow_label, h]
  | some l =>
    cases s with
    | compare a b => rw [follow_skip_compare, follow_skip_compare, h]
    | jump m test => rw [follow_skip_jump, follow_skip_jump, h]
    | label m => rw [follow_to_label, follow_to_label, h]

theorem follow_append_of_notMem (hl : l ∉ labels xs) :
    follow o operands (some l) (xs ++ rest) = follow o operands (some l) rest := by
  induction xs with
  | nil => rfl
  | cons s xs ih =>
    cases s with
    | compare a b => rw [List.cons_append, follow_skip_compare, ih hl]
    | jump m test => rw [List.cons_append, follow_skip_jump, ih hl]
    | label m =>
      simp only [labels_cons_label, List.mem_cons, not_or] at hl
      rw [List.cons_append, follow_skip_label hl.1, ih hl.2]

/-! ## Simplification -/

theorem follow_dropJump :
    follow o operands l? (dropJump s rest) = follow o operands l? (s :: rest) := by
  unfold dropJump
  split
  next l m rest =>
    split
    next hlm =>
      subst hlm
      cases l? with
      | none => rw [follow_jump_none, follow_arrive, follow_label]
      | some l' => rw [follow_skip_jump]
    next => rfl
  next => rfl

theorem follow_dropJumps : follow o operands l? (dropJumps xs) = follow o operands l? xs := by
  induction xs generalizing l? with
  | nil => rfl
  | cons s rest ih => rw [dropJumps, follow_dropJump, follow_cons_congr fun _ => ih]

theorem follow_invertJump :
    follow o operands l? (invertJump s rest) = follow o operands l? (s :: rest) := by
  unfold invertJump
  split
  next skipped test target next rest =>
    split
    next hc =>
      obtain ⟨rfl, hne⟩ := hc
      cases l? with
      | some l => simp only [follow_skip_jump]
      | none =>
        funext h
        rw [follow_test, follow_test, JumpTest.decides_inverse]
        cases JumpTest.decides test (o.last h.comparisons) with
        | true => rw [follow_skip_jump, follow_arrive, follow_label]; rfl
        | false => rw [follow_jump_none, follow_skip_label hne]; rfl
    next => rfl
  next => rfl

theorem follow_invertJumps : follow o operands l? (invertJumps xs) = follow o operands l? xs := by
  induction xs generalizing l? with
  | nil => rfl
  | cons s rest ih => rw [invertJumps, follow_invertJump, follow_cons_congr fun _ => ih]

theorem follow_filter {p : Step → Bool} (hp : ∀ s, s.label? = none → p s = true)
    (ht : ∀ l ∈ targets xs, p (.label l) = true) (hl : ∀ l, l? = some l → p (.label l) = true) :
    follow o operands l? (xs.filter p) = follow o operands l? xs := by
  induction xs generalizing l? with
  | nil => rfl
  | cons s xs ih =>
    cases s with
    | compare a b =>
      rw [List.filter_cons_of_pos (hp _ rfl)]
      cases l? with
      | none => rw [follow_compare, follow_compare, ih ht (by simp)]
      | some l => rw [follow_skip_compare, follow_skip_compare, ih ht hl]
    | jump m test =>
      simp only [targets_cons_jump, List.mem_cons, forall_eq_or_imp] at ht
      rw [List.filter_cons_of_pos (hp _ rfl)]
      cases l? with
      | none =>
        funext h
        rw [follow_jump, follow_jump, ih ht.2]
        intro l hl
        split at hl <;> simp_all
      | some l => rw [follow_skip_jump, follow_skip_jump, ih ht.2 hl]
    | label m =>
      rw [targets_cons_label] at ht
      cases l? with
      | none =>
        have ih : follow o operands none (xs.filter p) = _ := ih ht (by simp)
        rw [List.filter_cons]
        split <;> simp only [follow_label, ih]
      | some l =>
        by_cases hm : l = m
        · subst hm
          rw [List.filter_cons_of_pos (hl l rfl), follow_arrive, follow_arrive,
            ih ht (by simp)]
        · rw [List.filter_cons]
          split <;> simp only [follow_skip_label hm, ih ht hl]

theorem follow_dropLabels :
    follow o operands none (dropLabels xs) = follow o operands none xs := by
  refine follow_filter ?_ ?_ (by simp)
  · intro s hs
    cases s with
    | label l => simp [label?] at hs
    | compare | jump => rfl
  · intro l hl
    simpa [targets] using hl

/-- **Simplified steps do the same.** -/
theorem follow_simplify : follow o operands none (simplify xs) = follow o operands none xs :=
  simplify_induct (P := fun ys => follow o operands none ys = follow o operands none xs)
    (fun _ h => follow_dropJumps.trans h) (fun _ h => follow_invertJumps.trans h)
    (fun _ h => follow_dropLabels.trans h) rfl

end Step

/-! ## Conditions -/

namespace Shape

theorem isComparison_of_ofOperator? {op : Operator} {c : Comparison}
    (h : Comparison.ofOperator? op = some c) : op.isComparison = true := by
  cases op <;> first | rfl | cases h

theorem isLogical_of_ofOperator? {op : Operator} {c : Comparison}
    (h : Comparison.ofOperator? op = some c) : op.isLogical = false := by
  cases op <;> first | rfl | cases h

variable {o : Oracle} {t : Tree} {symbols : SymbolTable} {n : Nat}

variable (o t symbols n) in
/-- What a comparison and its operands do. What is no comparison is compared with zero. -/
def compares (x : Shape) : Exec Unit :=
  if x.kind.isComparison then do
    runOperand o t symbols x.parts.head? n
    runOperand o t symbols x.parts.getLast? n
    perform (.compare x.parts.head? x.parts.getLast?)
  else do
    run o t symbols x [] n
    perform (.compare (some x) none)

theorem test_parenthesis {x m : Shape} (hk : x.kind = .parenthesis) (hp : x.parts = [m]) :
    test o t symbols x n = test o t symbols m n := by
  rw [test, hk]
  simp only [hp, testLast]

variable {W q : Shape} {path : List Shape} {success failure next next' : Label}
variable {steps rest : List Step} {operands : NodeId → Exec Unit}

/-- A comparison with two jumps behind it. -/
theorem follow_comparison {a b : NodeId} {test : JumpTest} :
    Step.follow o operands none
        (.compare a b :: .jump success (some test) :: .jump failure none :: rest) =
      (do operands a; Exec.decides o test) >>= fun holds =>
        Step.follow o operands (some (if holds then success else failure)) rest := by
  rw [Step.follow_compare, bind_assoc]
  congr 1
  funext _
  funext h
  change _ = Step.follow o operands
    (some (if test.decides (o.last h.comparisons) then success else failure)) rest h
  rw [Step.follow_test]
  cases test.decides (o.last h.comparisons) <;> rfl

theorem test_logical {x l m : Shape} {op : Operator} (hk : x.kind = .operator op)
    (ho : op.isLogical = true) (hl : x.parts.head? = some l) (hm : x.parts.getLast? = some m) :
    test o t symbols x n =
      test o t symbols l n >>= fun b =>
        if b == (op == .and) then test o t symbols m n else pure (op != .and) := by
  rw [test, hk]
  simp only [ho, if_true, hl, hm, testPart]

theorem test_comparison {x l m : Shape} {op : Operator} {c : Comparison} {signed : Bool}
    (hk : x.kind = .operator op) (hc : Comparison.ofOperator? op = some c)
    (hl : x.parts.head? = some l) (hm : x.parts.getLast? = some m)
    (hs : comparesSigned t symbols l m = .ok signed) :
    test o t symbols x n =
      (do compares o t symbols n x; Exec.decides o ⟨c, signed⟩) := by
  have hlog := isLogical_of_ofOperator? hc
  have hcmp := isComparison_of_ofOperator? hc
  have hsigned : isSigned t symbols x.parts = signed := by
    simp [isSigned, hl, hm, hs, Except.toOption]
  rw [test, hk]
  simp [hlog, hc, hsigned, compares, hk, NodeKind.isComparison, hcmp]

theorem test_truth {x : Shape} (hk : x.kind.isTruth = true) {signed : Bool} :
    test o t symbols x n =
      (do compares o t symbols n x; Exec.decides o ⟨.notEqual, signed⟩) := by
  have hsame : Exec.decides o ⟨.notEqual, signed⟩ = Exec.decides o ⟨.notEqual, true⟩ := by
    cases signed <;> rfl
  simp only [NodeKind.isTruth, Bool.and_eq_true, Bool.not_eq_true'] at hk
  rw [hsame, test, compares, hk.2]
  cases hx : x.kind with
  | operator op =>
    have hlog : op.isLogical = false := by simpa [hx, NodeKind.isConnective] using hk.1
    have hcmp : op.isComparison = false := by simpa [hx, NodeKind.isComparison] using hk.2
    have hnone : Comparison.ofOperator? op = none := by
      cases op <;> first | rfl | cases hcmp
    simp [hlog, hnone]
  | parenthesis => simp [hx, NodeKind.isConnective] at hk
  | _ => simp only [Bool.false_eq_true, if_false, bind_assoc]

/-- **The steps of a condition test it.** -/
theorem Outlined.follow (h : Outlined t symbols q success failure next steps next')
    (hs : success < next) (hf : failure < next) (hq : W.In .condition path q)
    (hone : ∀ {path p}, W.In .condition path p → p.kind = .parenthesis → ∃ m, p.parts = [m])
    (hop : ∀ {path' x l}, q.Tests path path' x → x.left? = some l →
      operands l.id = compares o t symbols n x) :
    Step.follow o operands none (steps ++ rest) =
      test o t symbols q n >>= fun holds =>
        Step.follow o operands (some (if holds then success else failure)) rest := by
  induction h generalizing path rest with
  | @logical s l m op success failure next next₁ next₂ first second hk ho hl hm h₁ h₂ ih₁ ih₂ =>
    have hconn : s.kind.isConnective = true := by simpa [hk, NodeKind.isConnective] using ho
    have hle := h₁.le
    have part {c : Shape} (hc : c ∈ s.parts) : W.In .condition (s :: path) c :=
      .part hq (by simp [places, hconn, hc])
    have hfresh {a : Label} (ha : a < next) : a < next + 1 ∧ a < next₁ ∧ a ∉ Step.labels second :=
      have ha' := Nat.lt_trans ha hle
      ⟨Nat.lt_succ_of_lt ha, ha', fun hm => Nat.not_lt.mpr (h₂.labels hm).1 ha'⟩
    have ih₁ := @ih₁ (s :: path) (.label next :: (second ++ rest))
      (by split; exacts [Nat.lt_succ_self _, (hfresh hs).1])
      (by split; exacts [(hfresh hf).1, Nat.lt_succ_self _]) (part (List.mem_of_mem_head? hl))
      fun hx => hop (.part hconn (List.mem_of_mem_head? hl) hx)
    have ih₂ := @ih₂ (s :: path) rest (hfresh hs).2.1 (hfresh hf).2.1
      (part (List.mem_of_getLast? hm)) fun hx => hop (.part hconn (List.mem_of_getLast? hm) hx)
    have hskip {a : Label} (ha : a < next) :
        Step.follow o operands (some a) (.label next :: (second ++ rest)) =
          Step.follow o operands (some a) rest := by
      rw [Step.follow_skip_label (Nat.ne_of_lt ha), Step.follow_append_of_notMem (hfresh ha).2.2]
    rw [List.append_assoc, List.cons_append, ih₁, test_logical hk ho hl hm, bind_assoc]
    congr 1
    funext b
    by_cases hand : op = .and
    · subst hand
      cases b with
      | true => exact Step.follow_arrive.trans ih₂
      | false => exact (hskip hf).trans (pure_bind _ _).symm
    · have hne : (op == .and) = false := by simpa using hand
      simp only [hand, if_false, hne, bne, Bool.not_false]
      cases b with
      | true => exact (hskip hs).trans (pure_bind _ _).symm
      | false => exact Step.follow_arrive.trans ih₂
  | @comparison s l m op success failure next c signed hk hc hl hm hsigned =>
    have hcmp : s.kind.isComparison = true := by
      simpa [hk, NodeKind.isComparison] using isComparison_of_ofOperator? hc
    have hconn : s.kind.isConnective = false := by
      simpa [hk, NodeKind.isConnective] using isLogical_of_ofOperator? hc
    rw [List.cons_append, List.cons_append, List.cons_append, List.nil_append, follow_comparison,
      test_comparison hk hc hl hm hsigned, hop (.here hconn) (by rw [left?, if_pos hcmp, hl])]
  | truth hk =>
    have hk' := hk
    simp only [NodeKind.isTruth, Bool.and_eq_true, Bool.not_eq_true'] at hk'
    rw [List.cons_append, List.cons_append, List.cons_append, List.nil_append, follow_comparison,
      test_truth hk, hop (.here hk'.1) (by rw [left?, hk'.2]; rfl)]
  | @parenthesis s m success failure next next₁ steps hk hm h ih =>
    obtain ⟨m', hp⟩ := hone hq hk
    obtain rfl : m' = m := by simpa [hp] using hm
    have hconn : s.kind.isConnective = true := by simp [hk, NodeKind.isConnective]
    have hmem := List.mem_of_getLast? hm
    rw [ih hs hf (.part hq (by simp [places, hconn, hmem])) fun hx => hop (.part hconn hmem hx),
      test_parenthesis hk hp]

end Shape

end Codegen
