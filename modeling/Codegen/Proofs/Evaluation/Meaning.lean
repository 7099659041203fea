import Codegen.Evaluation
import Codegen.Proofs.Tree.Siblings

/-!
# What a statement tree runs

Statements that are not looked into, scopes and chains of branches, with conditions over atoms that
are not looked into. Which atoms are true decides which statements run.

* `Shape.truth`, `Shape.trace`: **the outcome of a condition and the statements that run**;
* `Shape.Test`, `Shape.Block`: the conditions and the lists of statements;
* `Shape.Alike`: lists of statements that run the same, and how parts of them may be exchanged.
-/

namespace Codegen

/-- Which atoms are true, by their nodes. -/
abbrev Truth := NodeId → Bool

namespace NodeKind

/-- May a simplification put another node in the place of a node? -/
def isReducible : NodeKind → Bool
  | operator o => o.isComparison || o.isLogical
  | compiles => true
  | _ => false

/-- Is the node left as it is, at its place, whatever is below it? -/
def isPlain : NodeKind → Bool
  | scope _ => false
  | k => !k.isBranch && !k.isReducible

/-- May the node become a literal? -/
def mayBeLiteral (k : NodeKind) : Bool := k.isNumber || k.isReducible

/-- May the value of the node be an address on the stack? -/
def mayBeAddress : NodeKind → Bool
  | parenthesis | reference _ | stackAddress .. => true
  | _ => false

end NodeKind

namespace Shape

/-! ## Meaning -/

/-- The outcome of a comparison of two literals. -/
def literalOutcome? (o : Operator) (l r : Shape) : Option Bool := do
  let c ← Comparison.ofOperator? o
  let a ← l.kind.number?
  let b ← r.kind.number?
  return c.holdsNumber a b

/-- Does a condition hold? -/
def truth (σ : Truth) : Shape → Bool
  | node _ (.number v _) _ => !v.isZero
  | node _ (.operator .and) [l, r] => l.truth σ && r.truth σ
  | node _ (.operator .or) [l, r] => l.truth σ || r.truth σ
  | node i (.operator o) [l, r] => (literalOutcome? o l r).getD (σ i)
  | node i _ _ => σ i

/-- What a branch runs that is tried: what is ahead of its condition, then its body if the condition
holds. -/
def tried (test : List NodeId × Bool) (body : List NodeId) : List NodeId × Bool :=
  (test.1 ++ (if test.2 then body else []), test.2)

mutual

/-- What a statement runs, and whether its chain is decided behind it. An alternative runs only if
the chain is not decided ahead of it. -/
def traceStep (σ : Truth) (decided : Bool) : Shape → List NodeId × Bool
  | node _ (.scope _) cs => ((trace σ false false cs).1, false)
  | node _ (.ifBranch _) [c, b] => tried (traceParts σ true c) (traceParts σ false b).1
  | node _ (.elseIf _) [c, b] =>
    if decided then ([], true) else tried (traceParts σ true c) (traceParts σ false b).1
  | node _ (.otherwise _) [b] => (if decided then [] else (traceParts σ false b).1, false)
  | node i _ _ => ([i], false)

/-- What the parts of a scope run. -/
def traceParts (σ : Truth) (e : Bool) : Shape → List NodeId × Bool
  | node _ _ cs => trace σ e false cs

/-- **The statements that a list of statements runs**, in order. A list may end with a condition,
which is asked whether it holds. -/
def trace (σ : Truth) (e decided : Bool) : List Shape → List NodeId × Bool
  | [] => ([], false)
  | s :: ss =>
    if e && ss.isEmpty then ([], s.truth σ)
    else
      ((traceStep σ decided s).1 ++ (trace σ e (traceStep σ decided s).2 ss).1,
        (trace σ e (traceStep σ decided s).2 ss).2)

end

variable {σ : Truth} {e b decided : Bool} {s q : Shape} {X Y : List Shape}

@[simp] theorem trace_nil : trace σ e decided [] = ([], false) := by rw [trace]

theorem trace_condition : trace σ true decided [q] = ([], q.truth σ) := by simp [trace]

theorem trace_cons (h : e = true → X ≠ []) :
    trace σ e decided (s :: X) =
      ((traceStep σ decided s).1 ++ (trace σ e (traceStep σ decided s).2 X).1,
        (trace σ e (traceStep σ decided s).2 X).2) := by
  have hX : (e && X.isEmpty) = false := by
    cases e <;> simp_all
  rw [trace, hX]
  rfl

/-! ## Statement trees -/

/-- No chain of branches is among the siblings or below them. -/
def Calm (X : List Shape) : Prop := ∀ s ∈ subs X, s.kind.isBranch = false

/-- Does nothing below give the address of bytes on the stack? -/
def isStackless (X : List Shape) : Bool :=
  (subs X).all fun s => match s.kind with
    | .stackAddress .. => false
    | _ => true

/-- Does the outcome of a comparison stay open? It is known of two literals, and where zero is
compared with an address on the stack, if there are any. -/
def staysOpen (stackless : Bool) (o : Operator) (l r : NodeKind) : Bool :=
  !(l.mayBeLiteral && r.mayBeLiteral) &&
    (stackless || !(o == .equals || o == .notEquals) ||
      !(l.mayBeLiteral && r.mayBeAddress || r.mayBeLiteral && l.mayBeAddress))

/-- **Conditions**: literals, comparisons of literals and atoms, joined by logical operators. An atom
is not looked into; it may be a comparison whose outcome stays open. -/
inductive Test (stackless : Bool) : Shape → Prop
  | literal (i : NodeId) (v : Number) (f : Format) : Test stackless (node i (.number v f) [])
  | comparison (i : NodeId) {o : Operator} (ho : o.isComparison = true) (a : NodeId) (v : Number)
      (f : Format) (c : NodeId) (w : Number) (g : Format) :
      Test stackless (node i (.operator o) [node a (.number v f) [], node c (.number w g) []])
  | logical (i : NodeId) {o : Operator} (ho : o.isLogical = true) {l r : Shape}
      (hl : Test stackless l) (hr : Test stackless r) : Test stackless (node i (.operator o) [l, r])
  | atom (i : NodeId) {k : NodeKind} (hk : k.isPlain = true) (hn : k.isNumber = false)
      {cs : List Shape} (hcs : Calm cs) : Test stackless (node i k cs)
  | compared (i : NodeId) {o : Operator} (ho : o.isComparison = true) {l r : Shape}
      (hopen : staysOpen stackless o l.kind r.kind = true) (hc : Calm [l, r]) :
      Test stackless (node i (.operator o) [l, r])

/-- **Lists of statements**: statements that are not looked into, scopes, and chains of branches. A
chain begins with the first branch; an alternative continues one. If it is told so, the list
continues a chain itself, or ends with a condition. -/
inductive Block (stackless : Bool) : Bool → Bool → List Shape → Prop
  | nil {b : Bool} : Block stackless false b []
  | condition {b : Bool} {q : Shape} (hq : Test stackless q) : Block stackless true b [q]
  | plain {e b : Bool} (i : NodeId) {k : NodeKind} (hk : k.isPlain = true) {cs X : List Shape}
      (hcs : Calm cs) (hX : Block stackless e false X) : Block stackless e b (node i k cs :: X)
  | scope {e b : Bool} (i : NodeId) (c : ContextId) {cs X : List Shape}
      (hcs : Block stackless false false cs) (hX : Block stackless e false X) :
      Block stackless e b (node i (.scope c) cs :: X)
  | first {e b : Bool} (i : NodeId) (c : ContextId) (j : NodeId) (d : ContextId) (m : NodeId)
      (g : ContextId) {before body X : List Shape} (hbefore : Block stackless true false before)
      (hbody : Block stackless false false body) (hX : Block stackless e true X) :
      Block stackless e b
        (node i (.ifBranch c) [node j (.scope d) before, node m (.scope g) body] :: X)
  | later {e : Bool} (i : NodeId) (c : ContextId) (j : NodeId) (d : ContextId) (m : NodeId)
      (g : ContextId) {before body X : List Shape} (hbefore : Block stackless true false before)
      (hbody : Block stackless false false body) (hX : Block stackless e true X) :
      Block stackless e true
        (node i (.elseIf c) [node j (.scope d) before, node m (.scope g) body] :: X)
  | last {e : Bool} (i : NodeId) (c : ContextId) (m : NodeId) (g : ContextId)
      {body X : List Shape} (hbody : Block stackless false false body)
      (hX : Block stackless e false X) :
      Block stackless e true (node i (.otherwise c) [node m (.scope g) body] :: X)

variable {stackless : Bool}

namespace Block

theorem ne_nil (h : Block stackless true b X) : X ≠ [] := by
  cases h <;> simp

theorem ne_nil_of (h : Block stackless e b X) (he : e = true) : X ≠ [] := by
  subst he
  exact h.ne_nil

theorem weaken (h : Block stackless e false X) (b : Bool) : Block stackless e b X := by
  cases h with
  | nil => exact .nil
  | condition hq => exact .condition hq
  | plain i hk hcs hX => exact .plain i hk hcs hX
  | scope i c hcs hX => exact .scope i c hcs hX
  | first i c j d m g hbefore hbody hX => exact .first i c j d m g hbefore hbody hX

end Block

/-! ### A test of statement trees -/

/-- Is no chain of branches among the siblings or below them? -/
def isCalm (X : List Shape) : Bool := (subs X).all (!·.kind.isBranch)

/-- Is the node a literal? -/
def isLiteral : Shape → Bool
  | node _ (.number ..) [] => true
  | _ => false

/-- Is it a condition? -/
def isTest (stackless : Bool) : Shape → Bool
  | node _ (.number ..) [] => true
  | node _ (.operator o) [l, r] =>
    o.isLogical && l.isTest stackless && r.isTest stackless ||
      o.isComparison && (l.isLiteral && r.isLiteral ||
        staysOpen stackless o l.kind r.kind && isCalm [l, r]) ||
      (NodeKind.operator o).isPlain && isCalm [l, r]
  | node _ k cs => k.isPlain && !k.isNumber && isCalm cs

mutual

/-- May the node be next in a list of statements? -/
def isStatement (stackless b : Bool) : Shape → Bool
  | node _ (.scope _) cs => isBlock stackless false false cs
  | node _ (.ifBranch _) [c, d] => isScope stackless true c && isScope stackless false d
  | node _ (.elseIf _) [c, d] => b && isScope stackless true c && isScope stackless false d
  | node _ (.otherwise _) [d] => b && isScope stackless false d
  | node _ k cs => k.isPlain && isCalm cs

/-- Is it a scope with statements? -/
def isScope (stackless e : Bool) : Shape → Bool
  | node _ (.scope _) cs => isBlock stackless e false cs
  | _ => false

/-- Is it a list of statements? -/
def isBlock (stackless e b : Bool) : List Shape → Bool
  | [] => !e
  | s :: ss =>
    if e && ss.isEmpty then s.isTest stackless
    else isStatement stackless b s && isBlock stackless e s.kind.isConditional ss

end

theorem calm_of_isCalm (h : isCalm X = true) : Calm X := by
  simpa [isCalm, Calm] using h

theorem exists_literal (h : s.isLiteral = true) : ∃ i v f, s = node i (.number v f) [] := by
  unfold isLiteral at h
  split at h
  · exact ⟨_, _, _, rfl⟩
  · cases h

theorem test_of_isTest (h : s.isTest stackless = true) : Test stackless s := by
  induction s using below_induction with
  | h i k cs ih =>
    unfold isTest at h
    split at h
    next he =>
      cases he
      exact .literal ..
    next he =>
      cases he
      simp only [Bool.or_eq_true, Bool.and_eq_true] at h
      rcases h with (⟨⟨ho, hl⟩, hr⟩ | ⟨ho, ⟨hl, hr⟩ | ⟨hopen, hc⟩⟩) | ⟨hk, hc⟩
      · exact .logical i ho (ih _ (by simp) hl) (ih _ (by simp) hr)
      · obtain ⟨a, v, f, rfl⟩ := exists_literal hl
        obtain ⟨c, w, g, rfl⟩ := exists_literal hr
        exact .comparison i ho a v f c w g
      · exact .compared i ho hopen (calm_of_isCalm hc)
      · exact .atom i hk rfl (calm_of_isCalm hc)
    next he =>
      cases he
      simp only [Bool.and_eq_true, Bool.not_eq_true'] at h
      exact .atom i h.1.1 h.1.2 (calm_of_isCalm h.2)

mutual

theorem statement_of_isStatement (s : Shape) {e b : Bool} {X : List Shape}
    (h : s.isStatement stackless b = true) (hX : Block stackless e s.kind.isConditional X) :
    Block stackless e b (s :: X) := by
  unfold isStatement at h
  split at h
  next i c cs => exact .scope i c (block_of_isBlock cs h) hX
  next i c before body =>
    rw [Bool.and_eq_true] at h
    obtain ⟨j, d, cs, rfl, hbefore⟩ := scope_of_isScope before h.1
    obtain ⟨m, g, cs', rfl, hbody⟩ := scope_of_isScope body h.2
    exact .first i c j d m g hbefore hbody hX
  next i c before body =>
    rw [Bool.and_eq_true, Bool.and_eq_true] at h
    obtain ⟨⟨rfl, h₁⟩, h₂⟩ := h
    obtain ⟨j, d, cs, rfl, hbefore⟩ := scope_of_isScope before h₁
    obtain ⟨m, g, cs', rfl, hbody⟩ := scope_of_isScope body h₂
    exact .later i c j d m g hbefore hbody hX
  next i c body =>
    rw [Bool.and_eq_true] at h
    obtain ⟨rfl, h⟩ := h
    obtain ⟨m, g, cs, rfl, hbody⟩ := scope_of_isScope body h
    exact .last i c m g hbody hX
  next i k cs _ _ _ _ =>
    rw [Bool.and_eq_true] at h
    have hk : k.isConditional = false := by
      cases k <;> simp_all [NodeKind.isPlain, NodeKind.isBranch, NodeKind.isConditional]
    exact .plain i h.1 (calm_of_isCalm h.2) (hk ▸ hX)

theorem scope_of_isScope (s : Shape) {e : Bool} (h : s.isScope stackless e = true) :
    ∃ i c cs, s = node i (.scope c) cs ∧ Block stackless e false cs := by
  unfold isScope at h
  split at h
  next i c cs => exact ⟨i, c, cs, rfl, block_of_isBlock cs h⟩
  · cases h

theorem block_of_isBlock (X : List Shape) {e b : Bool} (h : isBlock stackless e b X = true) :
    Block stackless e b X := by
  cases X with
  | nil =>
    obtain rfl : e = false := by simpa [isBlock] using h
    exact .nil
  | cons s ss =>
    rw [isBlock] at h
    split at h
    next hc =>
      rw [Bool.and_eq_true, List.isEmpty_iff] at hc
      obtain ⟨rfl, rfl⟩ := hc
      exact .condition (test_of_isTest h)
    · rw [Bool.and_eq_true] at h
      exact statement_of_isStatement s h.1 (block_of_isBlock ss h.2)

end

/-! ### Steps -/

@[simp] theorem traceStep_plain {i : NodeId} {k : NodeKind} {cs : List Shape} (hk : k.isPlain = true) :
    traceStep σ decided (node i k cs) = ([i], false) := by
  cases k <;> simp_all [traceStep, NodeKind.isPlain, NodeKind.isBranch]

@[simp] theorem traceStep_scope {i : NodeId} {c : ContextId} {cs : List Shape} :
    traceStep σ decided (node i (.scope c) cs) = ((trace σ false false cs).1, false) := by rw [traceStep]

@[simp] theorem traceParts_node {i : NodeId} {k : NodeKind} {cs : List Shape} :
    traceParts σ e (node i k cs) = trace σ e false cs := by rw [traceParts]

@[simp] theorem traceStep_ifBranch {i : NodeId} {c : ContextId} {l r : Shape} :
    traceStep σ decided (node i (.ifBranch c) [l, r]) =
      tried (traceParts σ true l) (traceParts σ false r).1 := by rw [traceStep]

@[simp] theorem traceStep_elseIf {i : NodeId} {c : ContextId} {l r : Shape} :
    traceStep σ decided (node i (.elseIf c) [l, r]) =
      if decided then ([], true) else tried (traceParts σ true l) (traceParts σ false r).1 := by
  rw [traceStep]

@[simp] theorem traceStep_otherwise {i : NodeId} {c : ContextId} {s : Shape} :
    traceStep σ decided (node i (.otherwise c) [s]) =
      (if decided then [] else (traceParts σ false s).1, false) := by rw [traceStep]

theorem Block.trace_eq (h : Block stackless e false X) :
    trace σ e decided X = trace σ e false X := by
  cases h with
  | nil => simp
  | condition => rw [trace_condition, trace_condition]
  | plain i hk hcs hX => simp only [trace_cons hX.ne_nil_of, traceStep_plain hk]
  | scope i c hcs hX => simp only [trace_cons hX.ne_nil_of, traceStep_scope]
  | first i c j d m g hbefore hbody hX => simp only [trace_cons hX.ne_nil_of, traceStep_ifBranch]

/-! ## Lists that run the same -/

/-- **Two lists of statements run the same**, whatever atoms are true. -/
structure Alike (stackless e b : Bool) (X Y : List Shape) : Prop where
  left : Block stackless e b X
  right : Block stackless e b Y
  same : ∀ σ decided, trace σ e decided Y = trace σ e decided X

namespace Alike

variable {X' Y' cs cs' body body' before before' : List Shape}

theorem refl (h : Block stackless e b X) : Alike stackless e b X X := ⟨h, h, fun _ _ => rfl⟩

theorem trans (h : Alike stackless e b X Y) (h' : Alike stackless e b Y X') :
    Alike stackless e b X X' :=
  ⟨h.left, h'.right, fun σ decided => (h'.same σ decided).trans (h.same σ decided)⟩

theorem ahead (h : Alike stackless e b X Y) :
    trace σ e decided (s :: Y) = trace σ e decided (s :: X) := by
  simp only [trace_cons h.left.ne_nil_of, trace_cons h.right.ne_nil_of, h.same]

theorem condition {q' : Shape} (hq : Test stackless q) (hq' : Test stackless q')
    (h : ∀ σ, q'.truth σ = q.truth σ) : Alike stackless true b [q] [q'] :=
  ⟨.condition hq, .condition hq', fun σ _ => by rw [trace_condition, trace_condition, h]⟩

theorem plain {i : NodeId} {k : NodeKind} (hk : k.isPlain = true) (hcs : Calm cs) (hcs' : Calm cs')
    (hX : Alike stackless e false X Y) :
    Alike stackless e b (node i k cs :: X) (node i k cs' :: Y) := by
  refine ⟨.plain i hk hcs hX.left, .plain i hk hcs' hX.right, fun σ decided => ?_⟩
  rw [hX.ahead]
  simp only [trace_cons hX.left.ne_nil_of, traceStep_plain hk]

theorem scope {i : NodeId} {c : ContextId} (hcs : Alike stackless false false cs cs')
    (hX : Alike stackless e false X Y) :
    Alike stackless e b (node i (.scope c) cs :: X) (node i (.scope c) cs' :: Y) := by
  refine ⟨.scope i c hcs.left hX.left, .scope i c hcs.right hX.right, fun σ decided => ?_⟩
  rw [hX.ahead]
  simp only [trace_cons hX.left.ne_nil_of, traceStep_scope, hcs.same]

section Branches

variable {i j m : NodeId} {c d g : ContextId}

theorem first (hbefore : Alike stackless true false before before')
    (hbody : Alike stackless false false body body') (hX : Alike stackless e true X Y) :
    Alike stackless e b
      (node i (.ifBranch c) [node j (.scope d) before, node m (.scope g) body] :: X)
      (node i (.ifBranch c) [node j (.scope d) before', node m (.scope g) body'] :: Y) := by
  refine ⟨.first i c j d m g hbefore.left hbody.left hX.left,
    .first i c j d m g hbefore.right hbody.right hX.right, fun σ decided => ?_⟩
  rw [hX.ahead]
  simp only [trace_cons hX.left.ne_nil_of, traceStep_ifBranch, traceParts_node, hbefore.same,
    hbody.same]

theorem later (hbefore : Alike stackless true false before before')
    (hbody : Alike stackless false false body body') (hX : Alike stackless e true X Y) :
    Alike stackless e true
      (node i (.elseIf c) [node j (.scope d) before, node m (.scope g) body] :: X)
      (node i (.elseIf c) [node j (.scope d) before', node m (.scope g) body'] :: Y) := by
  refine ⟨.later i c j d m g hbefore.left hbody.left hX.left,
    .later i c j d m g hbefore.right hbody.right hX.right, fun σ decided => ?_⟩
  rw [hX.ahead]
  simp only [trace_cons hX.left.ne_nil_of, traceStep_elseIf, traceParts_node, hbefore.same,
    hbody.same]

theorem last (hbody : Alike stackless false false body body') (hX : Alike stackless e false X Y) :
    Alike stackless e true (node i (.otherwise c) [node m (.scope g) body] :: X)
      (node i (.otherwise c) [node m (.scope g) body'] :: Y) := by
  refine ⟨.last i c m g hbody.left hX.left, .last i c m g hbody.right hX.right,
    fun σ decided => ?_⟩
  rw [hX.ahead]
  simp only [trace_cons hX.left.ne_nil_of, traceStep_otherwise, traceParts_node, hbody.same]

end Branches

end Alike

end Shape

end Codegen
