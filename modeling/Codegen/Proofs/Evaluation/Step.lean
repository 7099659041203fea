import Codegen.Proofs.Evaluation.Edit
import Codegen.Proofs.Symbol.Merge

/-!
# Steps of an evaluation

A branch with a literal as its condition goes, or its statements or those of the branch after it
take its place; the contexts of bodies that are spliced are merged into those around them. Which
edit that is depends on the branches before and after it alone. An operator with a known outcome
becomes a literal, a logical operator with a literal operand a literal or its other operand.

* `Evaluating.decideBranch_eq`: **which branches are decided**;
* `Evaluating.takeBranch_first`, `dropBranch_last`, ...: what becomes of a branch in each case;
* `Presents`: a program that shows a body, with contexts that exist;
* `Edits`: **a run that edits the siblings below a node**;
* `Presents.takeBranch_inlined`, `takeBranch_demoted`, `dropBranch_promoted`, ...: the five edits;
* `Tree.Shows.replaceElsewhere`: literals in the place of nodes that are not in the body any more;
* `Tree.Shows.outcome_eq`: the outcome of an operator on two operands;
* `Tree.Shows.simplifyLogical_eq`: **what becomes of a logical operator with a literal operand**.
-/

namespace Codegen

open Shape

/-- The number that a condition is, if a literal alone is the condition. -/
def Shape.loneNumber? (cs : List Shape) : Option Number :=
  match cs with
  | [u] => u.kind.number?
  | _ => none

/-! ## Steps -/

namespace Evaluating

variable {p : Program} {n m body : NodeId} {v : Number} {k : ContextId} {t : Tree}

/-- **A branch with a literal alone as its condition is decided**, others are left. -/
theorem decideBranch_eq {i j : NodeId} {top kind : NodeKind} {d g : ContextId}
    {X before inside : List Shape} (h : p.tree.Shows (.node i top X))
    (hk : kind.isConditional = true)
    (hs : .node n kind [.node j (.scope d) before, .node m (.scope g) inside] ∈ subs X) :
    decideBranch n p = match loneNumber? before with
      | none => .ok false p
      | some v => if v.isZero then dropBranch n p else takeBranch n p := by
  have hcondition := h.condition hk hs
  have hinit := h.conditionInitialization hk hs
  rcases List.eq_nil_or_concat before with rfl | ⟨ahead, u, rfl⟩
  · simp only [decideBranch, bind, EStateM.bind, get, getThe, MonadStateOf.get, EStateM.get,
      hcondition]
    rfl
  · have hnumber : ((p.tree.condition? n).bind fun c => (p.tree.kind c).number?) =
        u.kind.number? := by
      have hu : u ∈ subs X := subs_trans hs (by simp)
      simp [hcondition, h.kind hu]
    rw [List.concat_eq_append, List.map_append, List.map_singleton, List.dropLast_concat] at hinit
    simp only [decideBranch, bind, EStateM.bind, get, getThe, MonadStateOf.get, EStateM.get,
      hnumber, hinit]
    cases ahead with
    | nil =>
      simp only [List.concat_eq_append, List.nil_append, loneNumber?]
      cases u.kind.number? with
      | none => rfl
      | some v =>
        simp only [List.map_nil, List.isEmpty_nil, Bool.not_true, Bool.false_eq_true, if_false]
        split <;> rfl
    | cons a ahead => cases u.kind.number? <;> cases ahead <;> rfl

theorem takeBranch_first (ht : (p.tree.successors n).foldl Tree.remove p.tree = t)
    (hb : t.body? n = some body) (h : p.tree.predecessor? n = none) :
    takeBranch n p = (inlineBody n body *> pure true) { p with tree := t } := by
  simp only [takeBranch, modifyTree, modify, modifyGet, MonadStateOf.modifyGet,
    EStateM.modifyGet, bind, EStateM.bind, get, getThe, MonadStateOf.get, EStateM.get, h, ht, hb]
  rfl

theorem takeBranch_later (ht : (p.tree.successors n).foldl Tree.remove p.tree = t)
    (hb : t.body? n = some body) (h : p.tree.predecessor? n = some m)
    (hk : t.openedContext? n = some k) {j : NodeId} (hj : t.conditionScope? n = some j) :
    takeBranch n p = .ok true { p with tree := (t.remove j).setKind n (.otherwise k) } := by
  simp only [takeBranch, modifyTree, modify, modifyGet, MonadStateOf.modifyGet,
    EStateM.modifyGet, bind, EStateM.bind, get, getThe, MonadStateOf.get, EStateM.get, h, ht, hb,
    Option.isNone_some, Bool.false_eq_true, if_false, hk, hj, Option.elim_some]
  rfl

theorem dropBranch_promoted (h : p.tree.predecessor? n = none)
    (hm : p.tree.successor? n = some m) (hk : p.tree.kind m = .elseIf k) :
    dropBranch n p = .ok true { p with tree := (p.tree.setKind m (.ifBranch k)).remove n } := by
  simp only [dropBranch, modifyTree, modify, modifyGet, MonadStateOf.modifyGet,
    EStateM.modifyGet, bind, EStateM.bind, get, getThe, MonadStateOf.get, EStateM.get, h, hm, hk]
  rfl

theorem dropBranch_last (h : p.tree.predecessor? n = none) (hm : p.tree.successor? n = some m)
    (hk : p.tree.kind m = .otherwise k) (hb : p.tree.body? m = some body) :
    dropBranch n p = (inlineBody n body *> pure true) { p with tree := p.tree.remove m } := by
  simp only [dropBranch, modifyTree, modify, modifyGet, MonadStateOf.modifyGet,
    EStateM.modifyGet, bind, EStateM.bind, get, getThe, MonadStateOf.get, EStateM.get, h, hm, hk,
    hb]
  rfl

theorem dropBranch_removed (h : (p.tree.predecessor? n).isSome = true ∨
    p.tree.successor? n = none) :
    dropBranch n p = .ok true { p with tree := p.tree.remove n } := by
  simp only [dropBranch, modifyTree, modify, modifyGet, MonadStateOf.modifyGet, bind,
    EStateM.bind, get, getThe, MonadStateOf.get, EStateM.get]
  rcases h with h | h
  · obtain ⟨q, hq⟩ := Option.isSome_iff_exists.mp h
    rw [hq]
    rfl
  · rw [h]
    cases p.tree.predecessor? n <;> rfl

theorem inlineBody_merged {inner outer : ContextId} {symbols : SymbolTable}
    (hi : p.tree.kind body = .scope inner)
    (ho : (p.tree.parent? n).bind p.tree.contextOf? = some outer) (hne : inner ≠ outer)
    (hm : Scoping.merge outer inner p.symbols = .ok () symbols) :
    inlineBody n body p = .ok () ⟨p.tree.splice n body, symbols⟩ := by
  simp only [inlineBody, modifyTree, modify, modifyGet, MonadStateOf.modifyGet, bind,
    EStateM.bind, get, getThe, MonadStateOf.get, EStateM.get, hi, ho, if_pos hne, scoping, hm]
  rfl

theorem inlineBody_unmerged
    (h : ∀ inner outer, p.tree.kind body = .scope inner →
      (p.tree.parent? n).bind p.tree.contextOf? = some outer → inner = outer) :
    inlineBody n body p = .ok () ⟨p.tree.splice n body, p.symbols⟩ := by
  simp only [inlineBody, modifyTree, modify, modifyGet, MonadStateOf.modifyGet, bind,
    EStateM.bind, get, getThe, MonadStateOf.get, EStateM.get]
  cases hi : p.tree.kind body with
  | scope inner =>
    cases ho : (p.tree.parent? n).bind p.tree.contextOf? with
    | none => rfl
    | some outer =>
      obtain rfl := h inner outer hi ho
      simp only [ne_eq, not_true_eq_false, if_false]
      rfl
  | _ => rfl

/-- Statements are spliced where their contexts exist. -/
theorem inlineBody_ok {contexts types vars : Nat} (n body : NodeId)
    (hctx : ∀ m d, p.tree.openedContext? m = some d → d < contexts)
    (hsym : p.symbols.Within contexts types vars) :
    ∃ symbols, (inlineBody n body *> pure true) p = .ok true ⟨p.tree.splice n body, symbols⟩ ∧
      symbols.Within contexts types vars := by
  have step : ∃ symbols, inlineBody n body p = .ok () ⟨p.tree.splice n body, symbols⟩ ∧
      symbols.Within contexts types vars := by
    by_cases h : ∃ inner outer, p.tree.kind body = .scope inner ∧
        (p.tree.parent? n).bind p.tree.contextOf? = some outer ∧ inner ≠ outer
    · obtain ⟨inner, outer, hinner, houter, hne⟩ := h
      have hi : inner < contexts := hctx body inner (by rw [Tree.openedContext?, hinner])
      have ho : outer < contexts := by
        obtain ⟨q, -, hq⟩ := Option.bind_eq_some_iff.mp houter
        obtain ⟨m, -, hm⟩ := List.exists_of_findSome?_eq_some hq
        exact hctx m outer hm
      obtain ⟨_, symbols, hmerge, hw, -⟩ := Scoping.merge_succeeds ho hi _ hsym
      exact ⟨symbols, inlineBody_merged hinner houter hne hmerge, hw⟩
    · refine ⟨p.symbols, inlineBody_unmerged fun inner outer hi ho => ?_, hsym⟩
      by_contra hne
      exact h ⟨inner, outer, hi, ho, hne⟩
  obtain ⟨symbols, hs, hw⟩ := step
  refine ⟨symbols, ?_, hw⟩
  show EStateM.seqRight _ _ p = _
  rw [EStateM.seqRight, hs]
  rfl

end Evaluating

theorem Tree.conditionScope?_congr {t t' : Tree} {n : NodeId} (hk : t'.kind n = t.kind n)
    (hc : t'.children n = t.children n) : t'.conditionScope? n = t.conditionScope? n := by
  simp only [Tree.conditionScope?, Tree.child?, hk, hc]

theorem Tree.body?_congr {t t' : Tree} {n : NodeId} (hk : t'.kind n = t.kind n)
    (hc : t'.children n = t.children n) : t'.body? n = t.body? n := by
  simp only [Tree.body?, Tree.child?, hk, hc]

/-! ## Programs -/

/-- **A program that shows a body**, with contexts that exist. -/
structure Presents (contexts types vars : Nat) (i : NodeId) (top : NodeKind) (p : Program)
    (X : List Shape) : Prop where
  shows : p.tree.Shows (.node i top X)
  opened : ∀ m d, p.tree.openedContext? m = some d → d < contexts
  symbols : p.symbols.Within contexts types vars

/-- **A run that edits the siblings below a node.** -/
def Edits (contexts types vars : Nat) (p : Program) (q : Shape) (U V : List Shape)
    (g : Evaluating Bool) : Prop :=
  ∃ p' f f' touched, g p = .ok true p' ∧ p'.symbols.Within contexts types vars ∧
    Edited p.tree p'.tree f f' q U V touched

namespace Presents

variable {contexts types vars : Nat} {i n j m r : NodeId} {top kind : NodeKind} {p : Program}
variable {q s : Shape} {X U V Y as bs fs cs before body rest : List Shape} {k d g : ContextId}

/-- What a program shows behind an edit. -/
theorem edited {p' : Program} {f f' : NodeId → List NodeId} {touched : List NodeId}
    {X' : List Shape} (h : Presents contexts types vars i top p X)
    (hq : q ∈ subs [.node i top X]) (hw : p'.symbols.Within contexts types vars)
    (he : Edited p.tree p'.tree f f' q U V touched) (hU : U ≠ []) (hr : Rewrites U V X X') :
    Presents contexts types vars i top p' X' :=
  ⟨he.shows h.shows hq hU hr, fun m d hm => h.opened m d (he.contexts m ▸ hm), hw⟩

section Decided

variable (h : Presents contexts types vars i top p X) (hq : q ∈ subs [.node i top X])
include h hq

theorem children_removed (hparts : q.parts = as ++ (s :: fs) ++ bs) (hn : n ≠ q.id) :
    ((fs.map (·.id)).foldl Tree.remove p.tree).children n = p.tree.children n := by
  obtain ⟨f, hf, -⟩ := h.shows.displays
  rw [(hf.removeAll _).children, hf.children, h.shows.diff_other hf hq hparts hn]

/-- The statements of a body in the place of a branch and of the branches after it. -/
theorem inlineBody_edits (hparts : q.parts = as ++ (s :: fs) ++ bs)
    (hs : s.kind.isConditional = true) (hm : .node m (.scope g) body ∈ subs (s :: fs)) :
    Edits contexts types vars p q (s :: fs) body fun p =>
      (Evaluating.inlineBody s.id m *> pure true)
        { p with tree := (fs.map (·.id)).foldl Tree.remove p.tree } := by
  obtain ⟨f, hf, -⟩ := h.shows.displays
  have hrel := (Tree.Relinked.refl p.tree).removeAll (fs.map (·.id))
  have hctx : ∀ j d, Tree.openedContext? ((fs.map (·.id)).foldl Tree.remove p.tree) j = some d →
      d < contexts := fun j d hd =>
    h.opened j d ((Tree.openedContext?_congr (hrel.kind j)).symm.trans hd)
  obtain ⟨symbols, hrun, hw⟩ := Evaluating.inlineBody_ok s.id m
    (p := { p with tree := (fs.map (·.id)).foldl Tree.remove p.tree }) hctx h.symbols
  exact ⟨_, _, _, _, hrun, hw, h.shows.splice_edited hf hq hparts hm hs⟩

/-- The first branch of a chain, always taken, leaves its statements. -/
theorem takeBranch_inlined (hk : kind.isConditional = true)
    (hparts : q.parts = as ++
      .node n kind [.node j (.scope d) before, .node m (.scope g) body] :: rest)
    (hfs : rest = followers kind rest ++ Y) (hpred : p.tree.predecessor? n = none) :
    Edits contexts types vars p q
      (.node n kind [.node j (.scope d) before, .node m (.scope g) body] :: followers kind rest)
      body (Evaluating.takeBranch n) := by
  have hsucc := h.shows.successors hq hparts
  rw [id_node, kind_node] at hsucc
  generalize followers kind rest = fs at hfs hsucc
  subst hfs
  have hmem := Tree.Shows.mem_of_sibling hq hparts
  have hparts' : q.parts = as ++
      (.node n kind [.node j (.scope d) before, .node m (.scope g) body] :: fs) ++ Y := by
    simp [hparts]
  have hnq := h.shows.ne_parent hq (by simp [hparts]) (mem_subs_of_mem
    (s := .node n kind [.node j (.scope d) before, .node m (.scope g) body]) List.mem_cons_self)
  have hrel := (Tree.Relinked.refl p.tree).removeAll (fs.map (·.id))
  have hbody := (Tree.body?_congr (hrel.kind n) (h.children_removed hq hparts' hnq)).trans
    (h.shows.body hk hmem)
  have hm : .node m (.scope g) body ∈
      subs (.node n kind [.node j (.scope d) before, .node m (.scope g) body] :: fs) := by simp
  obtain ⟨p', f, f', touched, hrun, hX'⟩ := h.inlineBody_edits hq hparts' hk hm
  refine ⟨p', f, f', touched, ?_, hX'⟩
  rw [Evaluating.takeBranch_first (congrArg (List.foldl Tree.remove p.tree) hsucc) hbody hpred]
  exact hrun

/-- A later branch, always taken, becomes the last one. -/
theorem takeBranch_demoted
    (hparts : q.parts = as ++
      .node n (.elseIf k) [.node j (.scope d) before, .node m (.scope g) body] :: rest)
    (hfs : rest = followers (.elseIf k) rest ++ Y) (hpred : p.tree.predecessor? n = some r) :
    Edits contexts types vars p q
      (.node n (.elseIf k) [.node j (.scope d) before, .node m (.scope g) body] ::
        followers (.elseIf k) rest)
      [.node n (.otherwise k) [.node m (.scope g) body]] (Evaluating.takeBranch n) := by
  have hsucc := h.shows.successors hq hparts
  rw [id_node, kind_node] at hsucc
  generalize followers (.elseIf k) rest = fs at hfs hsucc
  subst hfs
  have hmem := Tree.Shows.mem_of_sibling hq hparts
  have hparts' : q.parts = as ++
      (.node n (.elseIf k) [.node j (.scope d) before, .node m (.scope g) body] :: fs) ++ Y := by
    simp [hparts]
  have hnq := h.shows.ne_parent hq (by simp [hparts]) (mem_subs_of_mem
    (s := .node n (.elseIf k) [.node j (.scope d) before, .node m (.scope g) body])
    List.mem_cons_self)
  have hrel := (Tree.Relinked.refl p.tree).removeAll (fs.map (·.id))
  have hchildren := h.children_removed hq hparts' hnq
  have hbody := (Tree.body?_congr (hrel.kind n) hchildren).trans (h.shows.body rfl hmem)
  have hscope := (Tree.conditionScope?_congr (hrel.kind n) hchildren).trans
    (h.shows.conditionScope rfl hmem)
  have hcontext : ((fs.map (·.id)).foldl Tree.remove p.tree).openedContext? n = some k := by
    rw [Tree.openedContext?_congr (hrel.kind n), Tree.openedContext?,
      show p.tree.kind n = _ from h.shows.kind hmem]
    rfl
  obtain ⟨f, hf, -⟩ := h.shows.displays
  exact ⟨_, _, _, _, Evaluating.takeBranch_later (congrArg (List.foldl Tree.remove p.tree) hsucc)
    hbody hpred hcontext hscope, h.symbols, h.shows.demote_edited hf hq hparts'⟩

/-- The first branch of a chain, never taken: the branch after it begins the chain. -/
theorem dropBranch_promoted (hs : s.kind.isConditional = true)
    (hparts : q.parts = as ++ s :: .node r (.elseIf k) cs :: Y)
    (hpred : p.tree.predecessor? s.id = none) :
    Edits contexts types vars p q [s, .node r (.elseIf k) cs] [.node r (.ifBranch k) cs]
      (Evaluating.dropBranch s.id) := by
  obtain ⟨f, hf, -⟩ := h.shows.displays
  have hkind : p.tree.kind r = _ := h.shows.kind (Tree.Shows.mem_of_sibling hq
    (show q.parts = (as ++ [s]) ++ .node r (.elseIf k) cs :: Y by simp [hparts]))
  have hsucc : p.tree.successor? s.id = some r := h.shows.successor hq hparts hs
  have hboth : q.parts = as ++ [s, .node r (.elseIf k) cs] ++ Y := by simp [hparts]
  exact ⟨_, _, _, _, Evaluating.dropBranch_promoted hpred hsucc hkind, h.symbols,
    h.shows.promote_edited hf hq hs hboth⟩

/-- The first branch of a chain, never taken: a last branch after it leaves its statements. -/
theorem dropBranch_inlined (hs : s.kind.isConditional = true)
    (hparts : q.parts = as ++ s :: .node r (.otherwise k) [.node m (.scope g) body] :: Y)
    (hpred : p.tree.predecessor? s.id = none) :
    Edits contexts types vars p q [s, .node r (.otherwise k) [.node m (.scope g) body]] body
      (Evaluating.dropBranch s.id) := by
  have hmem := Tree.Shows.mem_of_sibling hq (show q.parts =
    (as ++ [s]) ++ .node r (.otherwise k) [.node m (.scope g) body] :: Y by simp [hparts])
  have hsucc : p.tree.successor? s.id = some r := h.shows.successor hq hparts hs
  have hboth : q.parts = as ++ (s :: [.node r (.otherwise k) [.node m (.scope g) body]]) ++ Y := by
    simp [hparts]
  have hm : .node m (.scope g) body ∈
      subs (s :: [.node r (.otherwise k) [.node m (.scope g) body]]) := by simp
  obtain ⟨p', f, f', touched, hrun, hX'⟩ := h.inlineBody_edits hq hboth hs hm
  refine ⟨p', f, f', touched, ?_, hX'⟩
  rw [Evaluating.dropBranch_last hpred hsucc (h.shows.kind hmem) (h.shows.body_last hmem)]
  exact hrun

theorem dropBranch_removed (hs : s.kind.isConditional = true) (hparts : q.parts = as ++ s :: rest)
    (hno : (p.tree.predecessor? s.id).isSome = true ∨ p.tree.successor? s.id = none) :
    Edits contexts types vars p q [s] [] (Evaluating.dropBranch s.id) := by
  obtain ⟨f, hf, -⟩ := h.shows.displays
  have hsplit : q.parts = as ++ [s] ++ rest := by simp [hparts]
  exact ⟨_, _, _, _, Evaluating.dropBranch_removed hno, h.symbols,
    h.shows.remove_edited hf hq hs hsplit⟩

end Decided

end Presents

/-! ## Literals -/

theorem NodeKind.isNumber_iff {k : NodeKind} : k.isNumber = true ↔ ∃ v, k.number? = some v := by
  cases k <;> simp [isNumber, number?]

theorem NodeKind.operator?_eq_some {k : NodeKind} {o : Operator} :
    k.operator? = some o ↔ k = .operator o := by
  cases k <;> simp [operator?]

namespace Tree

variable {t : Tree} {f : NodeId → List NodeId} {n m q : NodeId} {v : Word} {d : ContextId}

theorem kind_replaceByNumber : (t.replaceByNumber n v).kind m =
    if m = t.size then .number (.integer v) .i64 else t.kind m := by
  have hrel := (Relinked.refl (t.createAt (.number (.integer v) .i64) (t.position? n)).2).replace n
    t.size
  refine (hrel.kind m).trans ?_
  rw [kind, node_createAt]
  split <;> rfl

theorem openedContext?_replaceByNumber
    (h : (t.replaceByNumber n v).openedContext? m = some d) : t.openedContext? m = some d := by
  rw [openedContext?, kind_replaceByNumber] at h
  by_cases hm : m = t.size
  · simp [hm] at h
  · rwa [if_neg hm] at h

theorem Forest.replaceByNumber (h : Forest t f) (hn : n ∈ f q) :
    Forest (t.replaceByNumber n v) fun q => (f q).map fun m => if m = n then t.size else m :=
  (h.createAt _ _).replace hn (by simp) fun _ hm => Nat.lt_irrefl _ (h.inside hm).2

theorem Shows.replaceElsewhere {i : NodeId} {top : NodeKind} {X : List Shape}
    (h : t.Shows (.node i top X)) (hf : Forest t f) (hn : n ∈ f q) (hX : n ∉ ids X) :
    (t.replaceByNumber n v).Shows (.node i top X) := by
  have hd := h.displays_of_forest hf
  have hf' := hf.replaceByNumber (v := v) hn
  have hsize : i < (t.replaceByNumber n v).size := by
    have hrel := (Relinked.refl
      (t.createAt (.number (.integer v) .i64) (t.position? n)).2).replace n t.size
    have hlarger : (t.replaceByNumber n v).size = t.size + 1 := hrel.size.trans (by simp)
    rw [hlarger]
    exact Nat.lt_succ_of_lt h.made
  refine Displays.shows (hd.congr (fun j hj => ?_) fun j hj => ?_) hf' hsize ?_
  · rw [kind_replaceByNumber, if_neg (Nat.ne_of_lt (h.lt_size hj))]
  · refine Shows.map_replace fun hm => hX ?_
    obtain ⟨s, hs, rfl⟩ := mem_ids.mp hj
    rw [(hd s hs).2] at hm
    have hids := ids_parts hs (map_id_subset hm)
    rw [ids_cons, ids_nil, List.append_nil, id_node, parts_node] at hids
    refine (List.mem_cons.mp hids).resolve_left fun hi => h.not_mem_root hf q ?_
    exact hi ▸ hn
  · rw [Option.eq_none_iff_forall_ne_some]
    intro r hr
    obtain ⟨m, hm, he⟩ := List.mem_map.mp (hf'.parent.mp hr)
    split at he
    · exact Nat.ne_of_lt h.made he.symm
    · rw [he] at hm
      exact h.not_mem_root hf r hm

/-! ## Operators -/

theorem decideNumbers_ne_none {o : Operator} (ho : o.isComparison = true ∨ o.isLogical = true)
    (a b : Number) : decideNumbers? o a b ≠ none := by
  cases o <;> simp_all [decideNumbers?, Comparison.ofOperator?, Operator.isComparison,
    Operator.isLogical, Operator.category]

namespace Shows

variable {i : NodeId} {top : NodeKind} {X : List Shape} {s : Shape} {t' : Tree}

theorem result_eq (t : Tree) (n m : NodeId) {o : Operator} (v : Number) :
    o.isLogical = true → (match o, v.isZero with
      | .and, true => t.replaceByNumber n 0
      | .or, false => t.replaceByNumber n 1
      | _, _ => t.replace n m) =
    if v.isZero = (o == .and) then t.replaceByNumber n (Tree.truth (o != .and))
    else t.replace n m := by
  intro ho
  cases o <;> cases v.isZero <;> first | rfl | cases ho

section Operators

variable (h : t.Shows (.node i top X))
include h

/-- The outcome of an operator on two operands. -/
theorem outcome_eq {j : NodeId} {o : Operator} {l r : Shape}
    (hs : .node j (.operator o) [l, r] ∈ subs X) (ho : o.isComparison = true ∨ o.isLogical = true) :
    t.outcome? i j =
      if t.comparesStackWithZero i o l.id r.id then some (o == .notEquals)
      else l.kind.number?.bind fun a => r.kind.number?.bind (Tree.decideNumbers? o a) := by
  have hl := h.kind (subs_trans hs (c := l) (by simp))
  have hr := h.kind (subs_trans hs (c := r) (by simp))
  have hkind : t.kind j = .operator o := h.kind hs
  have hfirst : t.first? j = some l.id := h.first hs
  have hlast : t.last? j = some r.id := h.last hs
  have hno : (!o.isComparison && !o.isLogical) = false := by
    rcases ho with ho | ho <;> simp [ho]
  simp only [Tree.outcome?, hkind, hfirst, hlast, hl, hr, NodeKind.operator?, hno,
    Option.bind_eq_bind, Option.bind_some, Bool.false_eq_true, if_false]

theorem number?_of_outcome {j : NodeId} {o : Operator} {l r : Shape}
    (hs : .node j (.operator o) [l, r] ∈ subs X) (ho : o.isComparison = true ∨ o.isLogical = true)
    (hnone : t.outcome? i j = none) : l.kind.number? = none ∨ r.kind.number? = none := by
  rw [h.outcome_eq hs ho] at hnone
  split at hnone
  · cases hnone
  · cases hl : l.kind.number? <;> cases hr : r.kind.number? <;> simp_all [decideNumbers_ne_none]

theorem isReducible_of_outcome (hs : s ∈ subs X) {b : Bool} (hb : t.outcome? i s.id = some b) :
    s.kind.isReducible = true := by
  rw [Tree.outcome?, h.kind hs] at hb
  obtain ⟨o, ho, hb⟩ := Option.bind_eq_some_iff.mp hb
  split at hb
  next => cases hb
  next hred =>
    rw [NodeKind.operator?_eq_some.mp ho, NodeKind.isReducible]
    revert hred
    cases o.isComparison <;> cases o.isLogical <;> decide

/-- What becomes of a logical operator with a literal operand. -/
theorem simplifyLogical_eq (hs : s ∈ subs X) (ht : t.simplifyLogical? s.id = some t') :
    ∃ o l r v w, s.kind = .operator o ∧ o.isLogical = true ∧ s.parts.head? = some l ∧
      s.parts.getLast? = some r ∧
      (l.kind.number? = some v ∧ w = r ∨ r.kind.number? = some v ∧ w = l) ∧
      t' = if v.isZero = (o == .and) then t.replaceByNumber s.id (Tree.truth (o != .and))
        else t.replace s.id w.id := by
  rw [Tree.simplifyLogical?, h.kind hs, h.first hs, h.last hs] at ht
  obtain ⟨o, hk, ht⟩ := Option.bind_eq_some_iff.mp ht
  obtain ⟨l, hfirst, ht⟩ := Option.bind_eq_some_iff.mp ht
  obtain ⟨r, hlast, ht⟩ := Option.bind_eq_some_iff.mp ht
  obtain ⟨l, hl, rfl⟩ := Option.map_eq_some_iff.mp hfirst
  obtain ⟨r, hr, rfl⟩ := Option.map_eq_some_iff.mp hlast
  rw [Option.filter_eq_some_iff] at hk
  obtain ⟨hk, ho⟩ := hk
  have hk := NodeKind.operator?_eq_some.mp hk
  rw [h.kind (subs_trans hs (mem_subs_of_mem (List.mem_of_mem_head? hl))),
    h.kind (subs_trans hs (mem_subs_of_mem (List.mem_of_getLast? hr)))] at ht
  cases hlv : l.kind.number? with
  | some v =>
    rw [hlv] at ht
    exact ⟨o, l, r, v, r, hk, ho, hl, hr, .inl ⟨hlv, rfl⟩,
      (Option.some.inj ht).symm.trans (result_eq t s.id r.id v ho)⟩
  | none =>
    cases hrv : r.kind.number? with
    | none => simp [hlv, hrv] at ht
    | some v =>
      rw [hlv, hrv] at ht
      exact ⟨o, l, r, v, l, hk, ho, hl, hr, .inr ⟨hrv, rfl⟩,
        (Option.some.inj ht).symm.trans (result_eq t s.id l.id v ho)⟩

theorem number?_of_simplifyLogical {j : NodeId} {o : Operator} {l r : Shape}
    (hs : .node j (.operator o) [l, r] ∈ subs X) (ho : o.isLogical = true)
    (hnone : t.simplifyLogical? j = none) : l.kind.number? = none ∧ r.kind.number? = none := by
  have hkind : t.kind j = .operator o := h.kind hs
  have hfirst : t.first? j = some l.id := h.first hs
  have hlast : t.last? j = some r.id := h.last hs
  simp only [Tree.simplifyLogical?, hkind, hfirst, hlast, NodeKind.operator?, ho,
    h.kind (subs_trans hs (c := l) (by simp)), h.kind (subs_trans hs (c := r) (by simp)),
    Option.bind_eq_bind, Option.bind_some, Option.filter_some_pos] at hnone
  cases hl : l.kind.number? <;> cases hr : r.kind.number? <;> simp_all

end Operators

end Shows

end Tree

end Codegen
