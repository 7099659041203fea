import Codegen.Proofs.Evaluation.Rounds
import Codegen.Proofs.Evaluation.Thinning

/-!
# Evaluations of any tree

The passes of a round thin out a tree, whatever parts its branches have, and each change leaves less
to simplify. So the rounds end. A branch that is always taken but has no body loses the branches
after it without a report; the nodes below those are listed still, and may be decided apart from the
tree.

* `Reduced`: **what passes leave of a program**;
* `Tree.changeAll_reduced`: a pass over operators;
* `Evaluating.decideBranch_decided`, `decideFirst_reduced`, `decideBranches_reduced`: branches;
* `Evaluating.reduceOnce`: the passes of a round ahead of the tests;
* `Evaluating.evaluate_ends`: **the evaluation ends**.
-/

namespace Codegen

open Relation

variable {i n m : NodeId} {s t t' : Tree} {p p' p₁ p₂ : Program} {b b' : Bool}

/-! ## What passes leave -/

theorem Tree.Thinned.openedContext (h : Thinned i t t') {d : ContextId}
    (hm : t'.openedContext? m = some d) : t.openedContext? m = some d := by
  by_cases hlt : m < t'.size
  · by_cases hold : m < t.size
    · have hturn := h.kind m hold
      rw [openedContext?] at hm ⊢
      generalize t.kind m = k at hturn
      generalize t'.kind m = k' at hturn hm
      cases hturn <;> exact hm
    · have hnumber := h.made m hlt (Nat.le_of_not_lt hold)
      rw [openedContext?] at hm
      cases hk : t'.kind m <;> simp_all [NodeKind.isNumber]
  · rw [openedContext?, Tree.kind, node_of_size_le (Nat.le_of_not_lt hlt)] at hm
    cases hm

/-- **What passes over operators and branches leave of a program.** If they changed something, then
there is less to simplify. -/
structure Reduced (i : NodeId) (t : Tree) (changed : Bool) (p : Program) : Prop where
  sound : p.tree.Sound
  closed : p.Closed
  thinned : Tree.Thinned i t p.tree
  fewer : p.tree.openings i + changed.toNat ≤ t.openings i

theorem Reduced.trans (h : Reduced i t b p) (h' : Reduced i p.tree b' p') (ht : t.Sound) :
    Reduced i t (b || b') p' where
  sound := h'.sound
  closed := h'.closed
  thinned := h.thinned.trans h'.thinned ht h.sound
  fewer := by
    have h₁ := h.fewer
    have h₂ := h'.fewer
    cases b <;> cases b' <;> simp only [Bool.or_false, Bool.or_true, Bool.toNat_false,
      Bool.toNat_true] at * <;> omega

theorem Program.Closed.thinned (h : p.Closed) (ht : Tree.Thinned i p.tree t) :
    Program.Closed { p with tree := t } :=
  ⟨h.symbols, fun m d hd => h.contexts m d (ht.openedContext hd)⟩

/-! ## Operators -/

namespace Tree

/-- **A pass over operators**: each change takes a node out that may be simplified. -/
theorem changeAll_reduced (change : Tree → NodeId → Option Tree) (ht : t.Sound)
    (hchange : ∀ {u u' : Tree} {n : NodeId}, u.Sound → n < u.size → change u n = some u' →
      (u.kind n).isOpen = true ∧ u'.Sound ∧ Thinned i u u' ∧ u'.parent? n = none)
    {ns : List NodeId} (hns : ∀ n ∈ ns, TransGen t.Under n i) :
    (changeAll change t ns).2.Sound ∧ Thinned i t (changeAll change t ns).2 ∧
      (changeAll change t ns).2.openings i + (changeAll change t ns).1.toNat ≤ t.openings i := by
  have all (ns : List NodeId) (hns : ∀ n ∈ ns, TransGen t.Under n i) (b : Bool) (u : Tree)
      (hu : u.Sound) (hthin : Thinned i t u) (hfewer : u.openings i + b.toNat ≤ t.openings i) :
      (ns.foldl (tryChange change) (b, u)).2.Sound ∧
        Thinned i t (ns.foldl (tryChange change) (b, u)).2 ∧
        (ns.foldl (tryChange change) (b, u)).2.openings i +
          (ns.foldl (tryChange change) (b, u)).1.toNat ≤ t.openings i := by
    induction ns generalizing b u with
    | nil => exact ⟨hu, hthin, hfewer⟩
    | cons n ns ih =>
      rw [List.forall_mem_cons] at hns
      rw [List.foldl_cons]
      cases hn : change u n with
      | none =>
        rw [show tryChange change (b, u) n = (b, u) by simp [tryChange, hn]]
        exact ih hns.2 b u hu hthin hfewer
      | some u' =>
        rw [show tryChange change (b, u) n = (true, u') by simp [tryChange, hn]]
        have hlt := ht.below_lt hns.1
        obtain ⟨hopen, hu', hthin', hgone⟩ := hchange hu (Nat.lt_of_lt_of_le hlt hthin.size) hn
        have hthin' := hthin.trans hthin' ht hu
        exact ih hns.2 true u' hu' hthin' (hthin'.openings_lt ht hu'
          (ht.mem_findAll.mpr ⟨hns.1, (hthin.kind n hlt).isOpen hopen⟩) (hu'.not_mem_findAll hgone))
  exact all ns hns false t ht (.refl i t) (Nat.le_refl _)

theorem operator_of_outcome {root : NodeId} (h : t.outcome? root n = some b) :
    ∃ o, t.kind n = .operator o ∧ (o.isComparison = true ∨ o.isLogical = true) := by
  simp only [outcome?, Option.bind_eq_bind, Option.bind_eq_some_iff] at h
  obtain ⟨o, ho, h⟩ := h
  refine ⟨o, NodeKind.operator?_eq_some.mp ho, ?_⟩
  split at h
  · cases h
  next hno =>
    simpa [-not_and, Classical.not_and_iff_not_or_not] using hno

theorem operand_of_simplifyLogical (h : t.simplifyLogical? n = some t') :
    ∃ o, t.kind n = .operator o ∧ o.isLogical = true ∧ ((∃ v, t' = t.replaceByNumber n v) ∨
      ∃ m, (t.first? n = some m ∨ t.last? n = some m) ∧ t' = t.replace n m) := by
  simp only [simplifyLogical?, Option.bind_eq_bind, Option.bind_eq_some_iff,
    Option.filter_eq_some_iff] at h
  obtain ⟨o, ⟨ho, hlogical⟩, l, hl, r, hr, h⟩ := h
  refine ⟨o, NodeKind.operator?_eq_some.mp ho, hlogical, ?_⟩
  -- either the literal decides, or the other operand is left
  split at h
  · obtain rfl := Option.some.inj h
    dsimp only
    split
    exacts [.inl ⟨0, rfl⟩, .inl ⟨1, rfl⟩, .inr ⟨r, .inr hr, rfl⟩]
  · obtain rfl := Option.some.inj h
    dsimp only
    split
    exacts [.inl ⟨0, rfl⟩, .inl ⟨1, rfl⟩, .inr ⟨l, .inl hl, rfl⟩]
  · cases h

end Tree

namespace Evaluating

/-- **A pass over operators thins out the tree.** -/
theorem pass_reduced {k : Tree → Bool × Tree} (hp : p.Closed)
    (h : (k p.tree).2.Sound ∧ Tree.Thinned i p.tree (k p.tree).2 ∧
      (k p.tree).2.openings i + (k p.tree).1.toNat ≤ p.tree.openings i) :
    ∃ b p', pass k p = .ok b p' ∧ Reduced i p.tree b p' :=
  ⟨_, _, rfl, h.1, hp.thinned h.2.1, h.2.1, h.2.2⟩

theorem foldOperators_reduced (ht : p.tree.Sound) (hp : p.Closed) :
    ∃ b p', pass (·.foldOperators i) p = .ok b p' ∧ Reduced i p.tree b p' := by
  refine pass_reduced hp (Tree.changeAll_reduced _ ht (fun {u u' n} hu hn h => ?_) fun n hn => ?_)
  · obtain ⟨b, hb, rfl⟩ := Option.map_eq_some_iff.mp h
    obtain ⟨o, hk, ho⟩ := Tree.operator_of_outcome hb
    have hkind : (u.kind n).isExchanged = true := by simpa [hk, NodeKind.isExchanged] using ho
    refine ⟨?_, (hu.replaceByNumber hn).1, hu.thinned_replaceByNumber hn hkind⟩
    simpa [hk, NodeKind.isOpen, NodeKind.isReducible, NodeKind.isConditional] using ho
  · exact (ht.mem_findAll.mp (List.mem_reverse.mp hn)).1

theorem simplifyLogic_reduced (ht : p.tree.Sound) (hp : p.Closed) :
    ∃ b p', pass (·.simplifyLogic i) p = .ok b p' ∧ Reduced i p.tree b p' := by
  refine pass_reduced hp (Tree.changeAll_reduced _ ht (fun {u u' n} hu hn h => ?_) fun n hn => ?_)
  · split at h
    · obtain ⟨o, hk, ho, h⟩ := Tree.operand_of_simplifyLogical h
      have hkind : (u.kind n).isExchanged = true := by simp [hk, NodeKind.isExchanged, ho]
      refine ⟨by simp [hk, NodeKind.isOpen, NodeKind.isReducible, ho], ?_⟩
      rcases h with ⟨v, rfl⟩ | ⟨m, hm, rfl⟩
      · exact ⟨(hu.replaceByNumber hn).1, hu.thinned_replaceByNumber hn hkind⟩
      · refine hu.thinned_replace (hu.linked.under.mpr ?_) hkind
        rw [hu.linked.first, hu.linked.last] at hm
        exact hm.elim List.mem_of_mem_head? List.mem_of_getLast?
    · cases h
  · exact (ht.mem_findAll.mp (List.mem_reverse.mp hn)).1

end Evaluating

/-! ## Branches -/

namespace Tree

theorem isAlternative_of_successor (h : t.successor? n = some m) :
    (t.kind m).isAlternative = true ∧ t.next? n = some m := by
  rw [successor?] at h
  split at h
  · obtain ⟨hm, hk⟩ := Option.filter_eq_some_iff.mp h
    exact ⟨hk, hm⟩
  · cases h

theorem isAlternative_of_mem_successors (h : m ∈ t.successors n) :
    (t.kind m).isAlternative = true := by
  have all (fuel : Nat) (n : NodeId) : m ∈ t.chain fuel (t.successor? n) →
      (t.kind m).isAlternative = true := by
    induction fuel generalizing n with
    | zero => simp [chain]
    | succ fuel ih =>
      cases hn : t.successor? n with
      | none => simp [chain]
      | some c =>
        rw [chain, List.mem_cons]
        rintro (rfl | hm)
        · exact (isAlternative_of_successor hn).1
        · exact ih c hm
  exact all _ n h

theorem Sound.under_child (h : t.Sound) {k : Nat} (hm : t.child? n k = some m) : t.Under m n :=
  h.linked.under.mpr (List.mem_of_getElem? hm)

theorem Sound.under_body (h : t.Sound) (hm : t.body? n = some m) : t.Under m n := by
  rw [body?] at hm
  split at hm
  all_goals first | exact h.under_child hm | cases hm

theorem Sound.under_conditionScope (h : t.Sound) (hm : t.conditionScope? n = some m) :
    t.Under m n := by
  rw [conditionScope?] at hm
  split at hm
  all_goals first | exact h.under_child hm | cases hm

end Tree

namespace Evaluating

/-- **What deciding a branch leaves**, of a tree some branches of which were taken out. Either it
was left, or it may not be simplified any more. -/
structure Decided (i n : NodeId) (s : Tree) (b : Bool) (p : Program) : Prop where
  sound : p.tree.Sound
  closed : p.Closed
  thinned : Tree.Thinned i s p.tree
  left : b = false → Tree.Shed s p.tree
  gone : b = true → n ∉ p.tree.findAll i NodeKind.isOpen

theorem takeBranch_left (ht : (p.tree.successors n).foldl Tree.remove p.tree = t)
    (hb : t.body? n = none) : takeBranch n p = .ok false { p with tree := t } := by
  simp only [takeBranch, modifyTree, modify, modifyGet, MonadStateOf.modifyGet,
    EStateM.modifyGet, bind, EStateM.bind, get, getThe, MonadStateOf.get, EStateM.get, ht, hb]
  rfl

theorem takeBranch_demoted {body : NodeId} {c : ContextId}
    (ht : (p.tree.successors n).foldl Tree.remove p.tree = t) (hb : t.body? n = some body)
    (h : p.tree.predecessor? n = some m) (hk : t.openedContext? n = some c) :
    takeBranch n p = .ok true
      { p with tree := ((t.conditionScope? n).elim t t.remove).setKind n (.otherwise c) } := by
  simp only [takeBranch, modifyTree, modify, modifyGet, MonadStateOf.modifyGet,
    EStateM.modifyGet, bind, EStateM.bind, get, getThe, MonadStateOf.get, EStateM.get, h, ht, hb,
    Option.isNone_some, Bool.false_eq_true, if_false, hk]
  rfl

theorem dropBranch_left {c : ContextId} (h : p.tree.predecessor? n = none)
    (hm : p.tree.successor? n = some m) (hk : p.tree.kind m = .otherwise c)
    (hb : p.tree.body? m = none) : dropBranch n p = .ok false p := by
  simp only [dropBranch, bind, EStateM.bind, get, getThe, MonadStateOf.get, EStateM.get, h, hm, hk,
    hb]
  rfl

theorem closed_of_kind (hp : p.Closed) (ht : ∀ m, t.kind m = p.tree.kind m) :
    Program.Closed { p with tree := t } :=
  ⟨hp.symbols, fun m d hd => hp.contexts m d (Tree.openedContext?_congr (ht m) ▸ hd)⟩

section Branches

variable (h : Tree.Shed s p.tree) (hp : p.Closed)
include h hp

theorem Decided.of_left : Decided i n s false p :=
  ⟨h.sound, hp, h.thinned, fun _ => h, Bool.noConfusion⟩

theorem closed_of_thinned (ht : Tree.Thinned i s t) : Program.Closed { p with tree := t } :=
  ⟨hp.symbols, fun m d hd => hp.contexts m d
    (Tree.openedContext?_congr (h.links.kind m) ▸ ht.openedContext hd)⟩

variable (hs : s.Sound) (hn : TransGen s.Under n i)
include hs hn

theorem inlineBody_decided {body : NodeId} (hk : (s.kind n).isExchanged = true)
    (hb : p.tree.Under body m) (hm : ∀ q, s.Under n q → s.Under m q)
    (hout : m = n ∨ p.tree.parent? m = none) :
    ∃ p', (inlineBody n body *> pure true) p = .ok true p' ∧ Decided i n s true p' := by
  obtain ⟨symbols, hrun, hw⟩ := inlineBody_ok n body hp.contexts hp.symbols
  obtain ⟨hsound, hthin, hgone⟩ := h.spliced hs hn hk hb hm hout
  refine ⟨_, hrun, hsound, ⟨?_, fun j d hd => ?_⟩, hthin, Bool.noConfusion,
    fun _ => hsound.not_mem_findAll hgone⟩
  · rwa [SymbolTable.Closed, hw.size, hw.sizeTypes, hw.sizeVars]
  · rw [hw.size]
    exact hp.contexts j d (Tree.openedContext?_congr
      (((Tree.Relinked.refl p.tree).splice n body).kind j) ▸ hd)

/-- **A branch that is always taken**, and the branches after it. -/
theorem takeBranch_decided (hk : (s.kind n).isConditional = true) :
    ∃ b p', takeBranch n p = .ok b p' ∧ Decided i n s b p' := by
  generalize ht : (p.tree.successors n).foldl Tree.remove p.tree = t
  have hshed : Tree.Shed s t := ht ▸ h.removeAll fun m hm => by
    rw [← h.links.kind]
    exact NodeKind.isExchanged_of_isAlternative (Tree.isAlternative_of_mem_successors hm)
  have hkind (m : NodeId) : t.kind m = p.tree.kind m :=
    (hshed.links.kind m).trans (h.links.kind m).symm
  have hclosed := closed_of_kind hp hkind
  cases hb : t.body? n with
  | none => exact ⟨_, _, takeBranch_left ht hb, .of_left hshed hclosed⟩
  | some body =>
    cases hpred : p.tree.predecessor? n with
    | none =>
      rw [takeBranch_first ht hb hpred]
      obtain ⟨p', hrun, hp'⟩ := inlineBody_decided (p := { p with tree := t }) hshed hclosed hs hn
        (NodeKind.isExchanged_of_isConditional hk) (hshed.sound.under_body hb) (fun _ => id)
        (.inl rfl)
      exact ⟨true, p', hrun, hp'⟩
    | some m =>
      -- a branch with another one before it
      obtain ⟨c, hc⟩ : ∃ c, s.kind n = .elseIf c := by
        rw [Tree.predecessor?, h.links.kind] at hpred
        split at hpred
        next ha =>
          cases hkn : s.kind n <;> simp_all [NodeKind.isConditional, NodeKind.isAlternative]
        next => cases hpred
      have hcontext : t.openedContext? n = some c := by
        rw [Tree.openedContext?, hshed.links.kind, hc]
      obtain ⟨hsound, hthin, hkn⟩ :=
        hshed.demoted hc fun j hj => hshed.sound.under_conditionScope hj
      refine ⟨_, _, takeBranch_demoted ht hb hpred hcontext, hsound, closed_of_thinned h hp hthin,
        hthin, Bool.noConfusion, fun _ hmem => ?_⟩
      have hopen := (hsound.mem_findAll.mp hmem).2
      rw [hkn] at hopen
      cases hopen

/-- **A branch that is never taken**, and the branch after it. -/
theorem dropBranch_decided (hk : (s.kind n).isConditional = true) :
    ∃ b p', dropBranch n p = .ok b p' ∧ Decided i n s b p' := by
  have hexchanged := NodeKind.isExchanged_of_isConditional hk
  by_cases hremoved : (p.tree.predecessor? n).isSome = true ∨ p.tree.successor? n = none
  · have hshed := h.remove hexchanged
    refine ⟨true, _, dropBranch_removed hremoved, hshed.sound,
      closed_of_kind hp ((Tree.Relinked.refl p.tree).remove n).kind, hshed.thinned,
      Bool.noConfusion, fun _ => hshed.sound.not_mem_findAll ?_⟩
    rw [(h.sound.linked.unlinked_remove n).parent, if_pos rfl]
  rw [not_or, Bool.not_eq_true, Option.isSome_eq_false_iff, Option.isNone_iff_eq_none] at hremoved
  obtain ⟨hpred, hsucc⟩ := hremoved
  obtain ⟨m, hm⟩ := Option.ne_none_iff_exists'.mp hsucc
  obtain ⟨hkm, hnext⟩ := Tree.isAlternative_of_successor hm
  have hexchanged' : (s.kind m).isExchanged = true :=
    h.links.kind m ▸ NodeKind.isExchanged_of_isAlternative hkm
  cases hkind : p.tree.kind m with
  | elseIf c =>
    obtain ⟨hsound, hthin, hgone⟩ := h.promoted hexchanged ((h.links.kind m).symm.trans hkind)
    exact ⟨true, _, dropBranch_promoted hpred hm hkind, hsound, closed_of_thinned h hp hthin, hthin,
      Bool.noConfusion, fun _ => hsound.not_mem_findAll hgone⟩
  | otherwise c =>
    cases hb : p.tree.body? m with
    | none => exact ⟨false, p, dropBranch_left hpred hm hkind hb, .of_left h hp⟩
    | some body =>
      have hbody := h.sound.under_body hb
      have hne : body ≠ m := by
        rintro rfl
        exact h.sound.acyclic body (.single hbody)
      rw [dropBranch_last hpred hm hkind hb]
      obtain ⟨p', hrun, hp'⟩ := inlineBody_decided (p := { p with tree := p.tree.remove m })
        (h.remove hexchanged') (closed_of_kind hp ((Tree.Relinked.refl p.tree).remove m).kind) hs hn
        hexchanged (h.sound.under_remove.mpr ⟨hne, hbody⟩)
        (fun q hq => (h.next hnext).symm.trans hq)
        (.inr (by rw [(h.sound.linked.unlinked_remove m).parent, if_pos rfl]))
      exact ⟨true, p', hrun, hp'⟩
  | _ => simp [hkind, NodeKind.isAlternative] at hkm

/-- **A branch of a tree that some branches were taken out of.** -/
theorem decideBranch_decided (hk : (s.kind n).isConditional = true) :
    ∃ b p', decideBranch n p = .ok b p' ∧ Decided i n s b p' := by
  simp only [decideBranch, bind, EStateM.bind, get, getThe, MonadStateOf.get, EStateM.get]
  cases (p.tree.condition? n).bind fun c => (p.tree.kind c).number? with
  | none => exact ⟨false, p, rfl, .of_left h hp⟩
  | some v =>
    dsimp only
    split
    · exact ⟨false, p, rfl, .of_left h hp⟩
    · split
      · exact dropBranch_decided h hp hs hn hk
      · exact takeBranch_decided h hp hs hn hk

end Branches

/-- **The first branch that can be decided**, of those that a tree has. -/
theorem decideFirst_reduced (hs : s.Sound) {ns : List NodeId}
    (hns : ∀ n ∈ ns, n ∈ s.findAll i NodeKind.isConditional) (h : Tree.Shed s p.tree)
    (hp : p.Closed) : ∃ b p', decideFirst ns p = .ok b p' ∧ Reduced i s b p' := by
  induction ns generalizing p with
  | nil => exact ⟨false, p, rfl, h.sound, hp, h.thinned, h.thinned.openings_le hs h.sound⟩
  | cons n ns ih =>
    rw [List.forall_mem_cons] at hns
    obtain ⟨hbelow, hk⟩ := hs.mem_findAll.mp hns.1
    obtain ⟨b, p₁, hrun, h₁⟩ := decideBranch_decided h hp hs hbelow hk
    cases b with
    | true =>
      refine ⟨true, p₁, ?_, h₁.sound, h₁.closed, h₁.thinned, ?_⟩
      · simp only [decideFirst, bind, EStateM.bind, hrun, if_true]
        rfl
      · exact h₁.thinned.openings_lt hs h₁.sound
          (hs.mem_findAll.mpr ⟨hbelow, by simp [NodeKind.isOpen, hk]⟩) (h₁.gone rfl)
    | false =>
      obtain ⟨b', p', hrun', hp'⟩ := ih hns.2 (h₁.left rfl) h₁.closed
      refine ⟨b', p', ?_, hp'⟩
      simp only [decideFirst, bind, EStateM.bind, hrun, Bool.false_eq_true, if_false, hrun']

/-- **The pass over branches.** -/
theorem decideBranches_reduced {fuel : Nat} (ht : p.tree.Sound) (hp : p.Closed)
    (hfuel : p.tree.openings i < fuel) :
    ∃ b p', decideBranches i fuel p = .ok b p' ∧ Reduced i p.tree b p' := by
  induction fuel generalizing p with
  | zero => cases hfuel
  | succ fuel ih =>
    obtain ⟨b, p₁, hrun, h₁⟩ := decideFirst_reduced (i := i) ht (fun _ => id) (.refl ht) hp
    have hfewer := h₁.fewer
    cases b with
    | false =>
      refine ⟨false, p₁, ?_, h₁⟩
      simp only [decideBranches, bind, EStateM.bind, get, getThe, MonadStateOf.get, EStateM.get,
        hrun, Bool.false_eq_true, if_false]
      rfl
    | true =>
      simp only [Bool.toNat_true] at hfewer
      obtain ⟨b', p', hrun', h'⟩ := ih h₁.sound h₁.closed (by omega)
      refine ⟨true, p', ?_, h₁.trans h' ht⟩
      simp only [decideBranches, bind, EStateM.bind, get, getThe, MonadStateOf.get, EStateM.get,
        hrun, if_true, hrun']
      rfl

/-! ## Rounds -/

/-- The passes of a round that decide something: all but the last one. -/
def reduceOnce (root : NodeId) : Evaluating Bool := do
  let folded ← pass (·.foldOperators root)
  let simplified ← pass (·.simplifyLogic root)
  let decided ← decideBranches root ((← get).tree.size + 1)
  return folded || simplified || decided

/-- **The passes over operators and branches**, one after another. -/
theorem reduceOnce_reduced (ht : p.tree.Sound) (hp : p.Closed) :
    ∃ b p', reduceOnce i p = .ok b p' ∧ Reduced i p.tree b p' := by
  obtain ⟨b₁, p₁, hrun₁, h₁⟩ := foldOperators_reduced (i := i) ht hp
  obtain ⟨b₂, p₂, hrun₂, h₂⟩ := simplifyLogic_reduced (i := i) h₁.sound h₁.closed
  obtain ⟨b₃, p₃, hrun₃, h₃⟩ := decideBranches_reduced (i := i) h₂.sound h₂.closed
    (Nat.lt_succ_of_le (h₂.sound.length_findAll_le i _))
  refine ⟨b₁ || b₂ || b₃, p₃, ?_, (h₁.trans h₂ ht).trans h₃ ht⟩
  simp only [reduceOnce, bind, EStateM.bind, hrun₁, hrun₂, get, getThe, MonadStateOf.get,
    EStateM.get, hrun₃]
  rfl

theorem evaluateOnce_of_reduceOnce {reduced probed : Bool}
    (h : reduceOnce i p = .ok reduced p₁) (h' : decideProbes i p₁ = .ok probed p₂) :
    evaluateOnce i p = .ok (reduced || probed) p₂ := by
  have hround : evaluateOnce i = do
      let reduced ← reduceOnce i
      let probed ← decideProbes i
      return reduced || probed := by
    simp only [evaluateOnce, reduceOnce, bind_assoc, pure_bind]
  rw [hround]
  simp only [bind, EStateM.bind, h, h']
  rfl

theorem decideEach_closed {ns : List NodeId} (hp : p.Closed)
    (hrun : forM ns decideProbe p = .ok () p') : p'.Closed := by
  induction ns generalizing p with
  | nil =>
    cases hrun
    exact hp
  | cons n ns ih =>
    refine ih (p := { p with tree := p.tree.replaceByNumber n (Tree.truth (p.compiles n)) })
      ⟨hp.symbols, fun m d hd => hp.contexts m d (Tree.openedContext?_replaceByNumber hd)⟩ ?_
    simpa only [List.forM_cons, bind, EStateM.bind, decideProbe_run] using hrun

theorem mem_findAll_judged (ht : p.tree.Sound) (ht' : p'.tree.Sound) (h : Judged i p p')
    (hn : n ∈ p'.tree.findAll i NodeKind.isOpen) :
    n ∈ p.tree.findAll i NodeKind.isOpen ∧ n ∉ p.tree.findAll i (· == .compiles) := by
  obtain ⟨hbelow, hk⟩ := ht'.mem_findAll.mp hn
  rcases h.below ht ht' hbelow with ⟨hold, hno⟩ | ⟨-, hnumber⟩
  · exact ⟨ht.mem_findAll.mpr ⟨hold, h.kind n (ht.below_lt hold) ▸ hk⟩, hno⟩
  · cases hkind : p'.tree.kind n <;> simp_all [NodeKind.isNumber, NodeKind.isOpen,
      NodeKind.isReducible, NodeKind.isConditional]

/-- **The pass over tests.** If there are any, there is less to simplify behind it. -/
theorem decideProbes_ends (ht : p.tree.Sound) (hp : p.Closed) (i : NodeId) :
    ∃ b p', decideProbes i p = .ok b p' ∧ p'.tree.Sound ∧ p'.Closed ∧ Judged i p p' ∧
      p'.tree.openings i + b.toNat ≤ p.tree.openings i := by
  obtain ⟨p', hrun, ht', h⟩ := ht.decideProbes_judged i
  have hclosed : p'.Closed := by
    simp only [decideProbes, List.forM_eq_forM, bind, EStateM.bind, get, getThe, MonadStateOf.get,
      EStateM.get] at hrun
    split at hrun
    next hr =>
      cases hrun
      exact decideEach_closed hp hr
    next => cases hrun
  refine ⟨_, p', hrun, ht', hclosed, h, ?_⟩
  have hnodup := (ht'.nodup_descendants i).filter (NodeKind.isOpen <| p'.tree.kind ·)
  have hmem {n : NodeId} (hn : n ∈ p'.tree.findAll i NodeKind.isOpen) :=
    mem_findAll_judged ht ht' h hn
  cases hprobes : p.tree.findAll i (· == .compiles) with
  | nil => exact (hnodup.subperm fun n hn => (hmem hn).1).length_le
  | cons n ns =>
    have hn : n ∈ p.tree.findAll i (· == .compiles) := hprobes ▸ List.mem_cons_self
    obtain ⟨hbelow, hk⟩ := ht.mem_findAll.mp hn
    have hopen : n ∈ p.tree.findAll i NodeKind.isOpen :=
      ht.mem_findAll.mpr ⟨hbelow, by rw [beq_iff_eq.mp hk]; rfl⟩
    have hfewer : (n :: p'.tree.findAll i NodeKind.isOpen).Subperm
        (p.tree.findAll i NodeKind.isOpen) :=
      (List.nodup_cons.mpr ⟨fun hm => (hmem hm).2 hn, hnodup⟩).subperm
        (List.cons_subset.mpr ⟨hopen, fun m hm => (hmem hm).1⟩)
    exact hfewer.length_le

/-- **One round.** -/
theorem evaluateOnce_ends (ht : p.tree.Sound) (hp : p.Closed) (i : NodeId) :
    ∃ reduced probed p₁ p₂, reduceOnce i p = .ok reduced p₁ ∧ Reduced i p.tree reduced p₁ ∧
      decideProbes i p₁ = .ok probed p₂ ∧ Judged i p₁ p₂ ∧
      evaluateOnce i p = .ok (reduced || probed) p₂ ∧ p₂.tree.Sound ∧ p₂.Closed ∧
      p₂.tree.openings i + (reduced || probed).toNat ≤ p.tree.openings i := by
  obtain ⟨reduced, p₁, hrun, h₁⟩ := reduceOnce_reduced (i := i) ht hp
  obtain ⟨probed, p₂, hprobe, ht₂, hp₂, hjudged, hfewer⟩ := decideProbes_ends h₁.sound h₁.closed i
  refine ⟨reduced, probed, p₁, p₂, hrun, h₁, hprobe, hjudged,
    evaluateOnce_of_reduceOnce hrun hprobe, ht₂, hp₂, ?_⟩
  have hfewer₁ := h₁.fewer
  cases reduced <;> cases probed <;> simp only [Bool.or_false, Bool.or_true, Bool.toNat_false,
    Bool.toNat_true] at * <;> omega

section Rounds

variable {fuel fuel' r r' : Nat} {q q' : Program}

theorem evaluateWithin_eq_ok : evaluateWithin i (fuel + 1) p = .ok r q ↔
    evaluateOnce i p = .ok false q ∧ r = 0 ∨
      ∃ p₁ k, evaluateOnce i p = .ok true p₁ ∧ evaluateWithin i fuel p₁ = .ok k q ∧ r = k + 1 := by
  simp only [evaluateWithin, bind, EStateM.bind]
  cases evaluateOnce i p with
  | error e p₁ => simp
  | ok changed p₁ =>
    cases changed with
    | false => simp [pure, EStateM.pure, and_comm, eq_comm]
    | true =>
      cases hrest : evaluateWithin i fuel p₁ <;>
        simp [EStateM.bind, hrest, pure, EStateM.pure, and_comm, eq_comm]

theorem evaluateWithin_agree (h : evaluateWithin i fuel p = .ok r q)
    (h' : evaluateWithin i fuel' p = .ok r' q') : r = r' ∧ q = q' := by
  induction fuel generalizing fuel' p r r' with
  | zero => cases h
  | succ fuel ih =>
    cases fuel' with
    | zero => cases h'
    | succ fuel' =>
      rcases evaluateWithin_eq_ok.mp h with ⟨hround, rfl⟩ | ⟨p₁, k, hround, hrest, rfl⟩ <;>
        rcases evaluateWithin_eq_ok.mp h' with ⟨hround', rfl⟩ | ⟨p₁', k', hround', hrest', rfl⟩ <;>
        rw [hround] at hround' <;> cases hround'
      · exact ⟨rfl, rfl⟩
      · obtain ⟨rfl, rfl⟩ := ih hrest hrest'
        exact ⟨rfl, rfl⟩

theorem evaluate_eq : evaluate i p = evaluateWithin i (p.tree.size + 2) p := by
  simp only [evaluate, bind, EStateM.bind, get, getThe, MonadStateOf.get, EStateM.get]

theorem evaluateWithin_ends (ht : p.tree.Sound) (hp : p.Closed) (hfuel : p.tree.openings i < fuel) :
    ∃ rounds p', evaluateWithin i fuel p = .ok rounds p' ∧
      p'.tree.findAll i (· == .compiles) = [] := by
  induction fuel generalizing p with
  | zero => cases hfuel
  | succ fuel ih =>
    obtain ⟨reduced, probed, p₁, p₂, -, h₁, -, hjudged, hround, ht₂, hp₂, hfewer⟩ :=
      evaluateOnce_ends ht hp i
    cases hchanged : reduced || probed with
    | false =>
      rw [hchanged] at hround
      exact ⟨0, p₂, evaluateWithin_eq_ok.mpr (.inl ⟨hround, rfl⟩),
        hjudged.findAll_eq_nil h₁.sound ht₂⟩
    | true =>
      rw [hchanged] at hround hfewer
      simp only [Bool.toNat_true] at hfewer
      obtain ⟨rounds, p', hrest, hp'⟩ := ih ht₂ hp₂ (by omega)
      exact ⟨rounds + 1, p', evaluateWithin_eq_ok.mpr (.inr ⟨p₂, rounds, hround, hrest, rfl⟩), hp'⟩

/-- **The evaluation ends**, and no test is left. -/
theorem evaluate_ends (ht : p.tree.Sound) (hp : p.Closed) (i : NodeId) :
    ∃ rounds p', evaluate i p = .ok rounds p' ∧ p'.tree.findAll i (· == .compiles) = [] := by
  have hfuel : p.tree.openings i < p.tree.size + 2 :=
    Nat.lt_add_right 1 (Nat.lt_succ_of_le (ht.length_findAll_le i _))
  rw [evaluate_eq]
  exact evaluateWithin_ends ht hp hfuel

/-- **It goes on behind its first round** as if it began there, unless that round reports no
change. -/
theorem evaluate_behind {changed : Bool} {rounds : Nat} (hround : evaluateOnce i p = .ok changed p₂)
    (ht : p₂.tree.Sound) (hp : p₂.Closed) (hrun : evaluate i p = .ok rounds p') :
    changed = false ∧ rounds = 0 ∧ p' = p₂ ∨
      changed = true ∧ ∃ r, rounds = r + 1 ∧ evaluate i p₂ = .ok r p' := by
  rw [evaluate_eq] at hrun
  rcases evaluateWithin_eq_ok.mp hrun with ⟨hround', rfl⟩ | ⟨q, r, hround', hrest, rfl⟩ <;>
    rw [hround] at hround' <;> cases hround'
  · exact .inl ⟨rfl, rfl, rfl⟩
  · obtain ⟨r', q, hrun', -⟩ := evaluate_ends ht hp i
    have hrun'' := hrun'
    rw [evaluate_eq] at hrun''
    obtain ⟨rfl, rfl⟩ := evaluateWithin_agree hrest hrun''
    exact .inr ⟨rfl, r, rfl, hrun'⟩

end Rounds

end Evaluating

end Codegen
