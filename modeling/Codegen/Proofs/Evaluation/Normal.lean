import Codegen.Proofs.Evaluation.Rounds

/-!
# Normal forms of an evaluation

In a proper tree comparisons and logical operators have two operands, branches have the scopes that
they need, and no branch is an operand of a comparison or of a logical operator: all its statements
would take its place there. Each step of an evaluation leaves a tree that is proper. So the
evaluation of a proper tree ends, and what it leaves has nothing in it to simplify.

* `NodeKind.hasParts`: the parts that nodes need;
* `Shape.Proper`: **trees in which the steps of an evaluation find these parts**;
* `Proper.rewrites`: siblings in the place of others;
* `ProperProgram.decideBranch`: a branch with a literal alone is decided;
* `ProperProgram.simplifying`: **all steps leave proper trees**;
* `Normal`: **trees without a literal that decides something, and without tests**;
* `Program.evaluate_normal`: **the evaluation of a proper tree ends in a normal form**;
* `not_normal_joined`: **the statements of a branch that is an operand stay**, literals too.
-/

namespace Codegen

open Shape

/-! ## Proper trees -/

namespace NodeKind

/-- Is the node a scope? -/
def isScope : NodeKind → Bool
  | scope _ => true
  | _ => false

/-- Does a node have the parts that its construct needs? -/
def hasParts (k : NodeKind) (parts : List NodeKind) : Bool :=
  match k with
  | operator _ => parts.length == 2
  | ifBranch _ | elseIf _ => parts.length == 2 && parts.all isScope
  | otherwise _ => parts.length == 1 && parts.all isScope
  | _ => true

/-- Does a node have the parts by which it is simplified, whatever the steps of an evaluation put in
the place of branches among them? -/
def isProper (k : NodeKind) (parts : List NodeKind) : Bool :=
  match k with
  | operator o => !(operator o).isReducible ||
      parts.length == 2 && parts.all (!·.isConditional)
  | _ => k.hasParts parts

end NodeKind

namespace Shape

variable {s x : Shape} {U V W X X' as bs : List Shape} {k : NodeKind}

/-- **Siblings that are proper with all below them**: comparisons, logical operators and branches
have the parts that they need, and no branch is an operand of a comparison or a logical operator. -/
def Proper (X : List Shape) : Prop := ∀ s ∈ subs X, s.kind.isProper (s.parts.map (·.kind))

instance : Decidable (Proper X) := inferInstanceAs (Decidable (∀ s ∈ subs X, _))

theorem Proper.subset (h : Proper X) (hV : subs V ⊆ subs X) : Proper V := fun s hs => h s (hV hs)

theorem Proper.parts (h : Proper X) (hs : s ∈ subs X) : Proper s.parts :=
  h.subset fun _ hu => subs_trans hs hu

theorem proper_append : Proper (X ++ W) ↔ Proper X ∧ Proper W := by
  simp only [Proper, subs_append, List.forall_mem_append]

theorem proper_cons : Proper (s :: X) ↔
    s.kind.isProper (s.parts.map (·.kind)) = true ∧ Proper s.parts ∧ Proper X := by
  simp only [Proper, subs_cons, List.forall_mem_cons, List.forall_mem_append]

theorem Proper.sub (h : Proper X) (hs : s ∈ subs X) : Proper [s] :=
  h.subset (subs_sublist hs).subset

theorem Proper.operands {j : NodeId} {o : Operator} {cs : List Shape} (h : Proper X)
    (hs : node j (.operator o) cs ∈ subs X) (ho : o.isComparison = true ∨ o.isLogical = true) :
    ∃ l r, cs = [l, r] ∧ l.kind.isConditional = false ∧ r.kind.isConditional = false := by
  have hparts := h _ hs
  have hred : (NodeKind.operator o).isReducible = true := by
    simpa [NodeKind.isReducible] using ho
  rcases cs with _ | ⟨l, _ | ⟨r, _ | ⟨_, _⟩⟩⟩ <;> simp [NodeKind.isProper, hred] at hparts
  exact ⟨l, r, rfl, hparts⟩

theorem exists_scope (h : s.kind.isScope = true) : ∃ j c cs, s = node j (.scope c) cs := by
  obtain ⟨j, k, cs⟩ := s
  cases k <;> first | exact ⟨_, _, _, rfl⟩ | cases h

theorem Proper.branch (h : Proper X) (hs : s ∈ subs X) (hk : s.kind.isConditional = true) :
    ∃ n kind j d m g before body,
      s = node n kind [node j (.scope d) before, node m (.scope g) body] := by
  have hparts := h s hs
  obtain ⟨n, kind, cs⟩ := s
  have hscopes : ∃ l r, cs = [l, r] ∧ l.kind.isScope = true ∧ r.kind.isScope = true := by
    rcases cs with _ | ⟨l, _ | ⟨r, _ | ⟨_, _⟩⟩⟩ <;>
      cases kind <;> simp_all [NodeKind.isProper, NodeKind.hasParts, NodeKind.isConditional]
  obtain ⟨l, r, rfl, hl, hr⟩ := hscopes
  obtain ⟨j, d, before, rfl⟩ := exists_scope hl
  obtain ⟨m, g, body, rfl⟩ := exists_scope hr
  exact ⟨n, kind, j, d, m, g, before, body, rfl⟩

theorem Proper.last {r : NodeId} {c : ContextId} {cs : List Shape} (h : Proper X)
    (hs : node r (.otherwise c) cs ∈ subs X) : ∃ m g body, cs = [node m (.scope g) body] := by
  have hparts := h _ hs
  rcases cs with _ | ⟨u, _ | ⟨_, _⟩⟩ <;> simp [NodeKind.isProper, NodeKind.hasParts] at hparts
  obtain ⟨m, g, body, rfl⟩ := exists_scope hparts
  exact ⟨m, g, body, rfl⟩

/-- **Siblings in the place of others leave what is around them proper**, if they fit there. -/
theorem Proper.rewrites (h : Proper X) (hr : Rewrites U V X X') (hV : Proper V)
    (hfit : ∀ (k : NodeKind) as bs, k.isProper (as ++ U.map (·.kind) ++ bs) = true →
      k.isProper (as ++ V.map (·.kind) ++ bs) = true) :
    Proper X' := by
  induction hr with
  | here as bs =>
    obtain ⟨h, hbs⟩ := proper_append.mp h
    exact proper_append.mpr ⟨proper_append.mpr ⟨(proper_append.mp h).1, hV⟩, hbs⟩
  | deeper as bs i k hr ih =>
    obtain ⟨has, h⟩ := proper_append.mp h
    obtain ⟨hnode, hcs, hbs⟩ := proper_cons.mp h
    refine proper_append.mpr ⟨has, proper_cons.mpr ⟨?_, ih hcs, hbs⟩⟩
    cases hr with
    | here as' bs' =>
      simp only [kind_node, parts_node, List.map_append] at hnode ⊢
      exact hfit k _ _ hnode
    | deeper as' bs' j k' hr =>
      simpa only [kind_node, parts_node, List.map_append, List.map_cons] using hnode

theorem Proper.exchange (h : Proper X) (hr : Rewrites [s] [x] X X')
    (hs : s.kind.isReducible = true) (hx : Proper [x]) (hk : x.kind.isConditional = false) :
    Proper X' := by
  refine h.rewrites hr hx fun k as bs hfit => ?_
  have hscope : s.kind.isScope = false := by
    cases hs' : s.kind <;> simp_all [NodeKind.isReducible, NodeKind.isScope]
  cases k with
  | operator o =>
    simp only [NodeKind.isProper, Bool.or_eq_true] at hfit ⊢
    refine hfit.imp_right fun hfit => ?_
    simp_all
  | _ => simp_all [NodeKind.isProper, NodeKind.hasParts]

/-- Any statements may take the place of a branch with a condition: it is among statements. -/
theorem Proper.edited {us : List Shape} (h : Proper X) (hr : Rewrites (s :: us) V X X')
    (hs : s.kind.isConditional = true) (hV : Proper V) : Proper X' := by
  refine h.rewrites hr hV fun k as bs hfit => ?_
  have hscope : s.kind.isScope = false := by
    cases hs' : s.kind <;> simp_all [NodeKind.isConditional, NodeKind.isScope]
  cases k <;> simp_all [NodeKind.isProper, NodeKind.hasParts]

end Shape

/-! ## Programs -/

/-- **A program that shows a proper tree.** -/
structure ProperProgram (contexts types vars : Nat) (i : NodeId) (top : NodeKind) (p : Program)
    (X : List Shape) : Prop where
  presents : Presents contexts types vars i top p X
  proper : Proper [node i top X]

namespace ProperProgram

variable {contexts types vars : Nat} {i n j m : NodeId} {top kind : NodeKind} {p p' : Program}
variable {q s x : Shape} {X X' V as us rest before body : List Shape} {d g : ContextId}

theorem proper_below (h : ProperProgram contexts types vars i top p X) : Proper X :=
  (proper_cons.mp h.proper).2.1

/-- What a step leaves of a program, with less to simplify. -/
def Leaves (contexts types vars : Nat) (i : NodeId) (top : NodeKind) (p' : Program)
    (X X' : List Shape) : Prop :=
  openings X' < openings X ∧ ProperProgram contexts types vars i top p' X'

section Steps

variable (h : ProperProgram contexts types vars i top p X)
include h

/-! ## Operators and tests -/

/-- **A node in the place of an operator or of a test.** -/
theorem exchange (p' : Program) (hs : s ∈ subs X) (hred : s.kind.isReducible = true)
    (hx : Proper [x]) (hk : x.kind.isConditional = false)
    (hless : openings [x] ≤ openings s.parts)
    (hp' : ∀ X', Rewrites [s] [x] X X' → Presents contexts types vars i top p' X') :
    ∃ X', Rewrites [s] [x] X X' ∧ Leaves contexts types vars i top p' X X' := by
  obtain ⟨X', hr⟩ := exists_rewrites hs [x]
  refine ⟨X', hr, ?_, hp' X' hr, h.proper.exchange hr.single hred hx hk⟩
  have hopen := openings_rewrites hr
  simp only [openings_cons (s := s), openings_nil, NodeKind.isOpen, hred, Bool.true_or,
    if_true] at hopen
  omega

theorem replaceByNumber (hs : s ∈ subs X) (hred : s.kind.isReducible = true) (v : Word) :
    ∃ X' x, Rewrites [s] [x] X X' ∧ Leaves contexts types vars i top
      { p with tree := p.tree.replaceByNumber s.id v } X X' := by
  have hx : Proper [node p.tree.size (.number (.integer v) .i64) []] := by
    intro u hu
    simp only [subs_cons, parts_node, subs_nil, List.append_nil, List.mem_singleton] at hu
    subst hu
    rfl
  obtain ⟨X', hX'⟩ := h.exchange { p with tree := p.tree.replaceByNumber s.id v } hs hred hx rfl
    (by simp [openings_cons, NodeKind.isOpen, NodeKind.isReducible, NodeKind.isConditional])
    fun X' hr => ⟨h.presents.shows.replaceByNew hs _ hr, fun m d hm =>
        h.presents.opened m d (Tree.openedContext?_replaceByNumber hm), h.presents.symbols⟩
  exact ⟨X', _, hX'⟩

theorem replaceByOperand {o : Operator} (hs : s ∈ subs X) (hk : s.kind = .operator o)
    (ho : o.isLogical = true) (hx : x ∈ s.parts) : ∃ X', Rewrites [s] [x] X X' ∧
      Leaves contexts types vars i top { p with tree := p.tree.replace s.id x.id } X X' := by
  have hrel := (Tree.Relinked.refl p.tree).replace s.id x.id
  have hred : s.kind.isReducible = true := by simp [hk, NodeKind.isReducible, ho]
  have hxX : x ∈ subs X := subs_trans hs (mem_subs_of_mem hx)
  have hnot : x.kind.isConditional = false := by
    obtain ⟨j, k, cs⟩ := s
    obtain rfl : k = .operator o := hk
    obtain ⟨l, r, rfl, hl, hr⟩ := h.proper_below.operands hs (.inr ho)
    rcases List.mem_pair.mp hx with rfl | rfl
    · exact hl
    · exact hr
  refine h.exchange _ hs hred (h.proper_below.sub hxX) hnot
    (openings_le_of_mem (mem_subs_of_mem hx)) fun X' hr =>
      ⟨h.presents.shows.replaceByPart hs hx hr, fun m d hm => ?_, h.presents.symbols⟩
  rw [Tree.openedContext?, hrel.kind, ← Tree.openedContext?] at hm
  exact h.presents.opened m d hm

theorem simplifyLogical {t : Tree} (hs : s ∈ subs X)
    (ht : p.tree.simplifyLogical? s.id = some t) :
    ∃ X' x, Rewrites [s] [x] X X' ∧
      Leaves contexts types vars i top { p with tree := t } X X' := by
  obtain ⟨o, l, r, v, w, hk, ho, hl, hr, hlit, rfl⟩ := h.presents.shows.simplifyLogical_eq hs ht
  have hw : w ∈ s.parts := by
    rcases hlit with ⟨-, rfl⟩ | ⟨-, rfl⟩
    · exact List.mem_of_getLast? hr
    · exact List.mem_of_mem_head? hl
  split
  · exact h.replaceByNumber hs (by simp [hk, NodeKind.isReducible, ho]) _
  · obtain ⟨X', hX'⟩ := h.replaceByOperand hs hk ho hw
    exact ⟨X', w, hX'⟩

theorem replaceElsewhere {f : NodeId → List NodeId} {r : NodeId} {v : Word}
    (hf : Tree.Forest p.tree f) (hn : n ∈ f r) (hX : n ∉ ids X) :
    ProperProgram contexts types vars i top { p with tree := p.tree.replaceByNumber n v } X :=
  ⟨⟨h.presents.shows.replaceElsewhere hf hn hX, fun m d hm =>
    h.presents.opened m d (Tree.openedContext?_replaceByNumber hm), h.presents.symbols⟩, h.proper⟩

/-! ## Branches -/

/-- **Statements in the place of a branch with a condition and of some siblings after it.** -/
theorem edited {e : Evaluating Bool} (us : List Shape) (hq : q ∈ subs [node i top X])
    (hparts : q.parts = as ++ s :: (us ++ rest)) (hs : s.kind.isConditional = true)
    (he : Edits contexts types vars p q (s :: us) V e) (hV : Proper V) :
    ∃ p' X', e p = .ok true p' ∧ Leaves contexts types vars i top p' X X' := by
  obtain ⟨p', f, f', touched, hrun, hw, he⟩ := he
  obtain ⟨X', hr⟩ := exists_rewrites_parts hq
    (show q.parts = as ++ (s :: us) ++ rest by simp [hparts]) V
  exact ⟨p', X', hrun, he.openings_lt hr, h.presents.edited hq hw he (by simp) hr,
    h.proper.edited hr.single hs hV⟩

/-- A branch that is always taken. -/
theorem takeBranch (hq : q ∈ subs [node i top X]) (hk : kind.isConditional = true)
    (hparts : q.parts = as ++
      node n kind [node j (.scope d) before, node m (.scope g) body] :: rest) :
    ∃ p' X', Evaluating.takeBranch n p = .ok true p' ∧
      Leaves contexts types vars i top p' X X' := by
  obtain ⟨Y, hfs⟩ := exists_followers kind rest
  have hbody : Proper body := h.proper_below.subset fun u hu =>
    subs_trans (Tree.Shows.mem_of_sibling hq hparts) (by simp [hu])
  have hsplit : q.parts = as ++ node n kind [node j (.scope d) before, node m (.scope g) body] ::
      (followers kind rest ++ Y) := hparts.trans (by rw [← hfs])
  cases hpred : p.tree.predecessor? n with
  | none =>
    exact h.edited _ hq hsplit hk (h.presents.takeBranch_inlined hq hk hparts hfs hpred) hbody
  | some r =>
    have halt : kind.isAlternative = true := by
      have hpred' := h.presents.shows.predecessor hq hparts
      rw [id_node, hpred] at hpred'
      by_contra hno
      simp [hno] at hpred'
    cases kind with
    | elseIf k =>
      refine h.edited _ hq hsplit hk (h.presents.takeBranch_demoted hq hparts hfs hpred) ?_
      refine proper_cons.mpr ⟨rfl, proper_cons.mpr ⟨rfl, hbody, ?_⟩, ?_⟩ <;> simp [Proper]
    | ifBranch => cases halt
    | _ => cases hk

theorem dropBranch (hq : q ∈ subs [node i top X]) (hparts : q.parts = as ++ s :: rest)
    (hs : s.kind.isConditional = true) :
    ∃ p' X', Evaluating.dropBranch s.id p = .ok true p' ∧
      Leaves contexts types vars i top p' X X' := by
  have hsucc := h.presents.shows.successor hq hparts hs
  by_cases hgoes : (p.tree.predecessor? s.id).isSome = true ∨ p.tree.successor? s.id = none
  · exact h.edited [] hq hparts hs
      (h.presents.dropBranch_removed hq hs hparts hgoes) (by simp [Proper])
  · -- a branch is after it, and none before it
    rw [not_or] at hgoes
    have hpred : p.tree.predecessor? s.id = none := by simpa using hgoes.1
    obtain ⟨⟨r, kind, cs⟩, Y, rfl, halt⟩ :
        ∃ u Y, rest = u :: Y ∧ u.kind.isAlternative = true := by
      cases rest with
      | nil => simp [hsucc] at hgoes
      | cons u Y =>
        refine ⟨u, Y, rfl, ?_⟩
        by_contra hno
        simp [hsucc, hno] at hgoes
    have hr : node r kind cs ∈ subs X := Tree.Shows.mem_of_sibling hq
      (show q.parts = (as ++ [s]) ++ node r kind cs :: Y by simp [hparts])
    have hcs := h.proper_below.parts hr
    cases kind with
    | elseIf k =>
      refine h.edited [_] hq hparts hs
        (h.presents.dropBranch_promoted hq hs hparts hpred) ?_
      have hnode := h.proper_below _ hr
      exact proper_cons.mpr ⟨hnode, hcs, by simp [Proper]⟩
    | otherwise k =>
      obtain ⟨m', g', body', rfl⟩ := h.proper_below.last hr
      exact h.edited [_] hq hparts hs
        (h.presents.dropBranch_inlined hq hs hparts hpred) (proper_cons.mp hcs).2.1
    | _ => cases halt

/-- **A branch with a literal alone as its condition is decided.** -/
theorem decideBranch {v : Number} (hk : kind.isConditional = true)
    (hs : node n kind [node j (.scope d) before, node m (.scope g) body] ∈ subs X)
    (hv : loneNumber? before = some v) :
    ∃ p' X', Evaluating.decideBranch n p = .ok true p' ∧
      Leaves contexts types vars i top p' X X' := by
  obtain ⟨q, hq, hsq⟩ := exists_parent (r := node i top X) hs
  obtain ⟨as, rest, hparts⟩ := List.append_of_mem hsq
  rw [Evaluating.decideBranch_eq h.presents.shows hk hs, hv]
  dsimp only
  split
  · exact h.dropBranch hq hparts hk
  · exact h.takeBranch hq hk hparts

end Steps

/-- **All steps of an evaluation leave proper trees.** -/
theorem simplifying : Simplifying i top (ProperProgram contexts types vars i top) where
  shows h := h.presents.shows
  fold h hs hb := h.replaceByNumber hs (h.presents.shows.isReducible_of_outcome hs hb) _
  simplify h hs ht := h.simplifyLogical hs ht
  decide := by
    intro p X s h hs hk
    obtain ⟨n, kind, j, d, m, g, before, body, rfl⟩ := h.proper_below.branch hs hk
    cases hv : loneNumber? before with
    | none => exact .inl (by rw [id_node, Evaluating.decideBranch_eq h.presents.shows hk hs, hv])
    | some v => exact .inr (h.decideBranch hk hs hv)
  test h hs hk := by
    obtain ⟨X', -, -, hX'⟩ := h.replaceByNumber hs (by rw [hk]; rfl) _
    exact ⟨X', hX'⟩
  elsewhere h hf hn hX := h.replaceElsewhere hf hn hX

end ProperProgram

/-! ## Normal forms -/

/-- **Trees in which an evaluation has nothing to do.** -/
structure Normal (X : List Shape) : Prop where
  /-- No comparison and no logical operator has literals only. -/
  operands : ∀ j o cs, node j (.operator o) cs ∈ subs X →
    o.isComparison = true ∨ o.isLogical = true → ∃ u ∈ cs, u.kind.isNumber = false
  /-- No logical operator has a literal. -/
  logic : ∀ j o cs, node j (.operator o) cs ∈ subs X →
    o.isLogical = true → ∀ u ∈ cs, u.kind.isNumber = false
  /-- No branch has a literal alone as its condition. -/
  branches : ∀ n k j d u cs, node n k (node j (.scope d) [u] :: cs) ∈ subs X →
    k.isConditional = true → u.kind.isNumber = false
  probes : ∀ s ∈ subs X, s.kind ≠ .compiles

theorem NodeKind.isNumber_eq_false {k : NodeKind} (h : k.number? = none) : k.isNumber = false := by
  cases k <;> first | rfl | cases h

namespace ProperProgram

variable {contexts types vars : Nat} {i : NodeId} {top : NodeKind} {p : Program} {X : List Shape}

/-- **Settled trees are normal.** -/
theorem normal (h : ProperProgram contexts types vars i top p X) (hX : Settled i p X) :
    Normal X where
  operands := by
    intro j o cs hs ho
    obtain ⟨l, r, rfl, -, -⟩ := h.proper_below.operands hs ho
    rcases h.presents.shows.number?_of_outcome hs ho (hX.folded _ hs) with hl | hr
    · exact ⟨l, by simp, NodeKind.isNumber_eq_false hl⟩
    · exact ⟨r, by simp, NodeKind.isNumber_eq_false hr⟩
  logic := by
    intro j o cs hs ho u hu
    obtain ⟨l, r, rfl, -, -⟩ := h.proper_below.operands hs (.inr ho)
    obtain ⟨hl, hr⟩ := h.presents.shows.number?_of_simplifyLogical hs ho (hX.simplified _ hs)
    rcases List.mem_pair.mp hu with rfl | rfl
    · exact NodeKind.isNumber_eq_false hl
    · exact NodeKind.isNumber_eq_false hr
  branches := by
    intro n k j d u cs hs hk
    obtain ⟨n, k, j, d, m, g, before, body, he⟩ := h.proper_below.branch hs hk
    simp only [node.injEq, List.cons.injEq] at he
    obtain ⟨rfl, rfl, ⟨rfl, -, rfl⟩, rfl⟩ := he
    by_contra hu
    -- such a branch is decided
    obtain ⟨v, hv⟩ := NodeKind.isNumber_iff.mp (Bool.not_eq_false _ ▸ hu)
    obtain ⟨p', -, hrun, -⟩ := h.decideBranch hk hs (show loneNumber? [u] = some v from hv)
    rw [show Evaluating.decideBranch n p = .ok false p from hX.decided _ hs hk] at hrun
    cases hrun
  probes := hX.probed

end ProperProgram

/-! ## Programs -/

/-- **The evaluation of a proper tree ends in a normal form**, and a second one changes neither the
tree nor the contexts. -/
theorem Program.evaluate_normal {p : Program} {i : NodeId} {top : NodeKind} {X : List Shape}
    (hs : p.tree.Shows (.node i top X)) (hproper : Proper [.node i top X]) (hp : p.Closed) :
    ∃ rounds p' X', Evaluating.evaluate i p = .ok rounds p' ∧
      p'.tree.Shows (.node i top X') ∧ Proper [.node i top X'] ∧ Normal X' ∧
      Evaluating.evaluate i p' = .ok 0 p' := by
  obtain ⟨rounds, p', X', hrun, h', hsettled, hagain⟩ :=
    ProperProgram.simplifying.evaluate ⟨hp.presents hs, hproper⟩
  exact ⟨rounds, p', X', hrun, h'.presents.shows, h'.proper, h'.normal hsettled, hagain⟩

/-- A program of one function with two numbers. -/
def Surface.ProgramForm.ofBody (body : List Form) : ProgramForm where
  globals := []
  types := []
  functions := [{
    name := "f"
    key := "f"
    inside? := none
    parameters := [⟨"p", some "i64"⟩, ⟨"q", some "i64"⟩]
    returnType? := some "i64"
    body? := some body }]

/-- A literal. -/
def Surface.Form.literal (v : Word) : Form := .number (.integer v) .i64

open Surface in
/-- A chain that is decided when its test is, and a value that is simplified. -/
def reducing : ProgramForm := .ofBody [
  .ifBranch
    (.operator .and (.compiles [.reference "p"]) (.operator .less (.literal 1) (.literal 2)))
    [.operator .assign (.reference "p") (.literal 3)] [],
  .elseIf (.operator .less (.reference "p") (.reference "q")) [.retValue (.reference "p")] [],
  .otherwise [.retValue (.literal 4)],
  .retValue (.operator .or (.literal 0) (.reference "q"))]

theorem reducing_checked : (reducing.program?.any fun (p, i) =>
    p.tree.kind i == .scope 1 && p.tree.isShown 9 (p.tree.shape 9 i) &&
      decide (Proper [p.tree.shape 9 i]) && p.isClosed) = true := by cbv

/-- What a tree shows of a body. -/
theorem Tree.shows_scope {t : Tree} {i : NodeId} {c : ContextId} {fuel : Nat}
    (hk : t.kind i = .scope c) (h : t.isShown (fuel + 1) (t.shape (fuel + 1) i) = true) :
    t.shape (fuel + 1) i = .node i (.scope c) (t.shape (fuel + 1) i).parts ∧
      t.Shows (.node i (.scope c) (t.shape (fuel + 1) i).parts) := by
  have he : t.shape (fuel + 1) i = .node i (.scope c) (t.shape (fuel + 1) i).parts := by
    rw [← hk]
    rfl
  exact ⟨he, he ▸ shows_of_isShown h⟩

/-- So it has a normal form. -/
theorem evaluate_normal_reducing : ∃ (p : Program) (i : NodeId) (X : List Shape),
    p.tree.Shows (.node i (.scope 1) X) ∧ Proper [.node i (.scope 1) X] ∧ p.Closed ∧
      ∃ rounds p' X', Evaluating.evaluate i p = .ok rounds p' ∧
        p'.tree.Shows (.node i (.scope 1) X') ∧ Proper [.node i (.scope 1) X'] ∧ Normal X' ∧
        Evaluating.evaluate i p' = .ok 0 p' := by
  obtain ⟨⟨p, i⟩, -, hw⟩ := (Option.any_eq_true _ _).mp reducing_checked
  simp only [Bool.and_eq_true, beq_iff_eq, decide_eq_true_eq] at hw
  obtain ⟨⟨⟨hk, hs⟩, hproper⟩, hp⟩ := hw
  obtain ⟨he, hs⟩ := Tree.shows_scope hk hs
  rw [he] at hproper
  have hp := Program.closed_of_isClosed hp
  exact ⟨p, i, _, hs, hproper, hp, Program.evaluate_normal hs hproper hp⟩

/-! ## Branches as operands -/

open Surface in
/-- A branch that is an operand of a logical operator, and that is always taken. -/
def joined : ProgramForm := .ofBody [.retValue (.operator .and
  (.ifBranch (.literal 1) [.reference "p", .literal 5] []) (.reference "q"))]

/-- Its nodes have the parts that they need. The statements of the branch become operands, and the
evaluation ends with a literal between two others. -/
theorem joined_checked : (joined.program?.any fun (p, i) =>
    p.tree.kind i == .scope 1 && p.tree.isShown 9 (p.tree.shape 9 i) &&
      ((subs [p.tree.shape 9 i]).all fun s => s.kind.hasParts (s.parts.map (·.kind))) &&
      p.isClosed &&
      match Evaluating.evaluate i p with
      | .ok _ p' => p'.tree.kind i == .scope 1 && p'.tree.isShown 9 (p'.tree.shape 9 i) &&
        (subs (p'.tree.shape 9 i).parts).any fun s =>
          s.kind.operator?.any (·.isLogical) && s.parts.any (·.kind.isNumber)
      | .error _ _ => false) = true := by cbv

/-- So what is left is no normal form. -/
theorem not_normal_joined : ∃ (p : Program) (i : NodeId) (X : List Shape) (rounds : Nat)
    (p' : Program) (X' : List Shape), joined.program? = some (p, i) ∧
      p.tree.Shows (.node i (.scope 1) X) ∧
      (∀ s ∈ subs [.node i (.scope 1) X], s.kind.hasParts (s.parts.map (·.kind)) = true) ∧
      p.Closed ∧ Evaluating.evaluate i p = .ok rounds p' ∧
      p'.tree.Shows (.node i (.scope 1) X') ∧ ¬ Normal X' := by
  obtain ⟨⟨p, i⟩, hload, hw⟩ := (Option.any_eq_true _ _).mp joined_checked
  simp only [Bool.and_eq_true, beq_iff_eq] at hw
  obtain ⟨⟨⟨⟨hk, hs⟩, hparts⟩, hp⟩, hrun⟩ := hw
  obtain ⟨he, hs⟩ := Tree.shows_scope hk hs
  rw [he, List.all_eq_true] at hparts
  split at hrun
  next rounds p' heval =>
    simp only [Bool.and_eq_true, beq_iff_eq] at hrun
    obtain ⟨⟨hk', hs'⟩, hbad⟩ := hrun
    refine ⟨p, i, _, rounds, p', _, hload, hs, hparts, Program.closed_of_isClosed hp, heval,
      (Tree.shows_scope hk' hs').2, fun hnormal => ?_⟩
    obtain ⟨⟨j, k, cs⟩, hmem, hany⟩ := List.any_eq_true.mp hbad
    obtain ⟨hk, hany⟩ := (Bool.and_eq_true _ _).mp hany
    obtain ⟨o, ho, hlogical⟩ := (Option.any_eq_true _ _).mp hk
    obtain ⟨u, hu, hnumber⟩ := List.any_eq_true.mp hany
    obtain rfl : k = .operator o := NodeKind.operator?_eq_some.mp ho
    rw [hnormal.logic j o cs hmem hlogical u hu] at hnumber
    cases hnumber
  next => cases hrun

end Codegen
