import Codegen.Proofs.Evaluation.Chain
import Codegen.Proofs.Evaluation.Operator

/-!
# Evaluation keeps what runs

Whatever atoms are true, the statements that ran before an evaluation run behind it in the same
order: each step of it leaves a body that runs the same. A branch that is decided goes, or its
statements or those of the branch after it take its place.

* `Located`: the list that a branch is in, and what it may be exchanged for;
* `Ready.edit`: what an edit leaves, if the lists run the same;
* `Evaluable.decideBranch`: **one branch**;
* `Ready.fold`, `Ready.replaceTest`: operators and tests for well-formedness;
* `Evaluable.simplifying`: **all steps keep what runs**;
* `Program.evaluate_trace`: **what runs before the evaluation runs behind it**.
-/

namespace Codegen

open Shape

namespace Ready

variable {stackless : Bool} {bound : Nat} {i : NodeId} {c : ContextId} {t t' : Tree}
variable {p s : Shape} {X X' U V as bs rest before : List Shape} {f f' : NodeId → List NodeId}
variable {touched : List NodeId}

/-- **An edit leaves what runs as it is, if the lists run the same.** -/
theorem edit (h : Ready stackless bound i c t X) (hp : p ∈ subs [node i (.scope c) X])
    (he : Edited t t' f f' p U V touched) (hU : U ≠ []) (hr : Rewrites U V X X')
    (ha : Alike stackless false false X X') : Simplified stackless bound i c t' X X' := by
  refine ⟨⟨he.shows h.shows hp hU hr, ha.right, fun hst => ?_, fun m d hm => ?_⟩, ha,
    he.openings_lt hr⟩
  · refine isStackless_rewrites hr (h.direct hst) (he.direct ?_)
    have hX := h.direct hst
    rw [isStackless, List.all_eq_true] at hX ⊢
    obtain ⟨ls, rs, hl, -⟩ := hr.labels_eq
    intro u hu
    have hlabel : (u.id, u.kind) ∈ labels X := by
      rw [hl]
      exact List.mem_append_left _ (List.mem_append_right _ (mem_labels.mpr ⟨u, hu, rfl, rfl⟩))
    obtain ⟨v, hv, -, hk⟩ := mem_labels.mp hlabel
    have hdirect := hX v hv
    rwa [hk] at hdirect
  · rw [he.contexts] at hm
    exact h.contexts m d hm

/-! ## Chains -/

/-- **The list that a branch is in.** Behind the statements ahead of it, it may be exchanged with
all that follows for statements that run the same. -/
structure Located (stackless : Bool) (i : NodeId) (c : ContextId) (X : List Shape) (p : Shape)
    (as : List Shape) (s : Shape) (rest : List Shape) (e b : Bool) : Prop where
  mem : p ∈ subs [node i (.scope c) X]
  parts : p.parts = as ++ s :: rest
  block : Block stackless e b (s :: rest)
  continued : b = true → ∃ q ∈ as.getLast?, q.kind.isConditional = true
  exchange : ∀ {U V Y : List Shape}, s :: rest = U ++ Y →
    Alike stackless e b (s :: rest) (V ++ Y) →
      ∃ X', Rewrites U V X X' ∧ Alike stackless false false X X'

theorem locate (h : Ready stackless bound i c t X) (hs : s ∈ subs X)
    (hk : s.kind.isBranch = true) : ∃ p as rest e b, Located stackless i c X p as s rest e b := by
  obtain ⟨p, hp, hsp, e, hblock, hex⟩ : ∃ p ∈ subs [node i (.scope c) X], s ∈ p.parts ∧
      ∃ e, Block stackless e false p.parts ∧ ∀ L, Alike stackless e false p.parts L →
        ∃ X', Rewrites p.parts L X X' ∧ Alike stackless false false X X' := by
    rcases h.block.exchange_list hs hk with hsX | ⟨p, hp, hsp, e, hblock, hex⟩
    · refine ⟨_, mem_subs_of_mem List.mem_cons_self, hsX, false, h.block, fun L hL => ⟨L, ?_, hL⟩⟩
      simpa using Rewrites.here (U := X) (V := L) [] []
    · exact ⟨p, by simp [hp], hsp, e, hblock, hex⟩
  obtain ⟨as, rest, hparts⟩ := List.append_of_mem hsp
  rw [hparts] at hblock hex
  obtain ⟨b, hb, hlast, halike⟩ := Alike.behind hblock
  refine ⟨p, as, rest, e, b, hp, hparts, hb, fun hbt => ?_, fun {U V Y} hU hY => ?_⟩
  · rcases hlast hbt with hq | ⟨-, hf⟩
    · exact hq
    · cases hf
  · obtain ⟨X', hr, ha⟩ := hex _ (halike _ hY)
    have hr' : Rewrites (as ++ U ++ Y) (as ++ V ++ Y) X X' := by
      rw [hU] at hr
      simpa using hr
    exact ⟨X', hr'.inner, ha⟩

theorem conditional_parts {e b : Bool} (h : Block stackless e b (s :: rest))
    (hk : s.kind.isConditional = true) : ∃ n kind j d m g before body,
      s = node n kind [node j (.scope d) before, node m (.scope g) body] ∧
        Block stackless true false before := by
  obtain ⟨n, kind, cs⟩ := s
  cases kind with
  | ifBranch k =>
    obtain ⟨j, d, m, g, before, body, rfl, hb, -⟩ := h.ifBranch_parts
    exact ⟨n, _, j, d, m, g, before, body, rfl, hb⟩
  | elseIf k =>
    obtain ⟨-, j, d, m, g, before, body, rfl, hb, -⟩ := h.elseIf_parts
    exact ⟨n, _, j, d, m, g, before, body, rfl, hb⟩
  | _ => cases hk

theorem exists_literal {b : Bool} {v : Number} (h : Block stackless true b before)
    (hv : loneNumber? before = some v) : ∃ w g, before = [node w (.number v g) []] := by
  obtain ⟨ahead, ⟨w, k, cs⟩, rfl, hu⟩ := h.ends
  cases ahead with
  | cons a ahead => cases ahead <;> cases hv
  | nil =>
    cases k with
    | number v' g =>
      obtain rfl : v' = v := Option.some.inj hv
      cases hu with
      | literal => exact ⟨w, g, rfl⟩
      | atom _ _ hn => cases hn
    | _ => cases hv

end Ready

/-! ## Programs -/

/-- **A program that is evaluated**: its contexts exist. -/
structure Evaluable (stackless : Bool) (contexts types vars : Nat) (i : NodeId)
    (c : ContextId) (p : Program) (X : List Shape) : Prop where
  ready : Ready stackless contexts i c p.tree X
  closed : p.symbols.Within contexts types vars

namespace Evaluable

open Ready

variable {stackless : Bool} {contexts types vars : Nat} {i : NodeId} {c : ContextId} {p : Program}
variable {s : Shape} {X before body as rest : List Shape} {n j m : NodeId} {k d g : ContextId}

theorem presents (h : Evaluable stackless contexts types vars i c p X) :
    Presents contexts types vars i (.scope c) p X :=
  ⟨h.ready.shows, h.ready.contexts, h.closed⟩

/-! ## One branch -/

/-- What becomes of a program if a branch is decided. -/
def Decides (stackless : Bool) (contexts types vars : Nat) (i : NodeId) (c : ContextId)
    (p : Program) (X : List Shape) (g : Evaluating Bool) : Prop :=
  ∃ p' X', g p = .ok true p' ∧ Simplified stackless contexts i c p'.tree X X' ∧
    p'.symbols.Within contexts types vars

section Decided

variable {q : Shape} {e b : Bool} {w r : NodeId} {v : Number} {fmt : Format}
variable {bs fs U V Y : List Shape}
variable (h : Evaluable stackless contexts types vars i c p X)
include h

/-- An edit that exchanges a branch and what follows for statements that run the same. -/
theorem decides (l : Located stackless i c X q as s rest e b) {g : Evaluating Bool}
    (hg : Edits contexts types vars p q U V g) (hU : s :: rest = U ++ Y) (hne : U ≠ [])
    (ha : Alike stackless e b (s :: rest) (V ++ Y)) :
    Decides stackless contexts types vars i c p X g := by
  obtain ⟨p', f, f', touched, hrun, hw, he⟩ := hg
  obtain ⟨X', hr, ha⟩ := l.exchange hU ha
  exact ⟨p', X', hrun, h.ready.edit l.mem he hne hr ha, hw⟩

/-- The first branch of a chain, always taken. -/
theorem takeBranch_first
    (l : Located stackless i c X q as (node n (.ifBranch k)
      [node j (.scope d) [node w (.number v fmt) []], node m (.scope g) body]) rest e b)
    (hv : v.isZero = false) :
    Decides stackless contexts types vars i c p X (Evaluating.takeBranch n) := by
  obtain ⟨Y, hfs, ha⟩ := Alike.take_first l.block hv
  have hpred : p.tree.predecessor? n = none := h.ready.shows.predecessor l.mem l.parts
  exact h.decides l (h.presents.takeBranch_inlined l.mem rfl l.parts hfs hpred)
    (congrArg _ hfs) (by simp) ha

theorem exists_predecessor {s : Shape} (l : Located stackless i c X q as s rest e true)
    (hs : s.kind.isAlternative = true) : ∃ u, p.tree.predecessor? s.id = some u := by
  obtain ⟨u, hu, huc⟩ := l.continued rfl
  rw [Option.mem_def] at hu
  exact ⟨u.id, by simp [h.ready.shows.predecessor l.mem l.parts, hu, huc, hs]⟩

theorem takeBranch_later
    (l : Located stackless i c X q as (node n (.elseIf k)
      [node j (.scope d) [node w (.number v fmt) []], node m (.scope g) body]) rest e b)
    (hv : v.isZero = false) :
    Decides stackless contexts types vars i c p X (Evaluating.takeBranch n) := by
  obtain ⟨Y, hfs, ha⟩ := Alike.take_later l.block hv
  obtain ⟨rfl, -⟩ := l.block.elseIf_parts
  obtain ⟨u, hpred⟩ := h.exists_predecessor l rfl
  exact h.decides l (h.presents.takeBranch_demoted l.mem l.parts hfs hpred) (congrArg _ hfs)
    (by simp) ha

theorem dropBranch_first
    (l : Located stackless i c X q as (node n (.ifBranch k)
      [node j (.scope d) [node w (.number v fmt) []], node m (.scope g) body]) rest e b)
    (hv : v.isZero = true) :
    Decides stackless contexts types vars i c p X (Evaluating.dropBranch n) := by
  have hpred : p.tree.predecessor? n = none := h.ready.shows.predecessor l.mem l.parts
  have hsucc : p.tree.successor? n = (rest.head?.filter (·.kind.isAlternative)).map (·.id) :=
    h.ready.shows.successor l.mem l.parts rfl
  by_cases halone : ∀ s ∈ rest.head?, s.kind.isAlternative = false
  · -- no branch is behind it
    have hnone : rest.head?.filter (·.kind.isAlternative) = none := by
      rw [Option.filter_eq_none_iff]
      exact fun s hs => Bool.not_eq_true _ ▸ halone s hs
    exact h.decides l (h.presents.dropBranch_removed l.mem rfl l.parts
      (.inr (by simp [hsucc, hnone]))) rfl (by simp) (Alike.drop_alone l.block hv halone)
  · obtain ⟨⟨r, kind, cs⟩, Y, rfl, halt⟩ : ∃ u Y, rest = u :: Y ∧ u.kind.isAlternative = true := by
      cases rest with
      | nil => simp at halone
      | cons u Y => exact ⟨u, Y, rfl, by simpa using halone⟩
    obtain ⟨_, _, _, _, _, _, -, -, -, hnext⟩ := l.block.ifBranch_parts
    cases kind with
    | elseIf k' =>
      exact h.decides l (h.presents.dropBranch_promoted l.mem rfl l.parts hpred) rfl (by simp)
        (Alike.drop_first l.block hv)
    | otherwise k' =>
      obtain ⟨-, m', g', body', rfl, -⟩ := hnext.otherwise_parts
      exact h.decides l (h.presents.dropBranch_inlined l.mem rfl l.parts hpred) rfl (by simp)
        (Alike.drop_first_last l.block hv)
    | _ => cases halt

theorem dropBranch_later
    (l : Located stackless i c X q as (node n (.elseIf k)
      [node j (.scope d) [node w (.number v fmt) []], node m (.scope g) body]) rest e b)
    (hv : v.isZero = true) :
    Decides stackless contexts types vars i c p X (Evaluating.dropBranch n) := by
  obtain ⟨rfl, -⟩ := l.block.elseIf_parts
  obtain ⟨u, hpred⟩ := h.exists_predecessor l rfl
  exact h.decides l (h.presents.dropBranch_removed l.mem rfl l.parts
    (.inl (by rw [hpred]; rfl))) rfl (by simp) (Alike.drop_later l.block hv)

/-- **One branch**: it is left, or what it runs stays. -/
theorem decideBranch (hs : s ∈ subs X) (hk : s.kind.isConditional = true) :
    Evaluating.decideBranch s.id p = .ok false p ∨
      Decides stackless contexts types vars i c p X (Evaluating.decideBranch s.id) := by
  obtain ⟨q, as, rest, e, b, l⟩ := h.ready.locate hs (by
    cases hs : s.kind <;> simp_all [NodeKind.isBranch, NodeKind.isConditional])
  obtain ⟨n, kind, j, d, m, g, before, body, rfl, hbefore⟩ := conditional_parts l.block hk
  simp only [Decides, id_node]
  rw [Evaluating.decideBranch_eq h.ready.shows hk hs]
  cases hv : loneNumber? before with
  | none => exact .inl rfl
  | some v =>
    right
    obtain ⟨w, fmt, rfl⟩ := exists_literal hbefore hv
    dsimp only
    split
    next hz =>
      cases kind with
      | ifBranch k => exact h.dropBranch_first l hz
      | elseIf k => exact h.dropBranch_later l hz
      | _ => cases hk
    next hz =>
      cases kind with
      | ifBranch k => exact h.takeBranch_first l (Bool.not_eq_true _ ▸ hz)
      | elseIf k => exact h.takeBranch_later l (Bool.not_eq_true _ ▸ hz)
      | _ => cases hk

end Decided

end Evaluable

/-! ## Steps -/

namespace Ready

variable {stackless : Bool} {bound : Nat} {i : NodeId} {c : ContextId} {t : Tree}
variable {s : Shape} {X : List Shape} {f : NodeId → List NodeId} {n q : NodeId}

theorem fold (h : Ready stackless bound i c t X) (hs : s ∈ subs X) {b : Bool}
    (hb : t.outcome? i s.id = some b) : ∃ X' x, Rewrites [s] [x] X X' ∧
      Simplified stackless bound i c (t.replaceByNumber s.id (Tree.truth b)) X X' := by
  obtain ⟨X', x, hr, -, hX'⟩ := h.replaceByNumber hs (h.shows.isReducible_of_outcome hs hb)
    fun hq => h.outcome hs hq hb
  exact ⟨X', x, hr, hX'⟩

/-- A test becomes a literal; it is no condition. -/
theorem replaceTest {b : Bool} (h : Ready stackless bound i c t X) (hs : s ∈ subs X)
    (hk : s.kind = .compiles) :
    ∃ X', Simplified stackless bound i c (t.replaceByNumber s.id (Tree.truth b)) X X' := by
  have hno (hq : Test stackless s) : False := by
    cases hq <;> simp_all [NodeKind.isPlain, NodeKind.isReducible]
  obtain ⟨X', x, -, -, hX'⟩ := h.replaceByNumber hs (by rw [hk]; rfl) (b := b)
    fun hq => (hno hq).elim
  exact ⟨X', hX'⟩

theorem replaceElsewhere {v : Word} (h : Ready stackless bound i c t X) (hf : Tree.Forest t f)
    (hn : n ∈ f q) (hX : n ∉ ids X) : Ready stackless bound i c (t.replaceByNumber n v) X :=
  ⟨h.shows.replaceElsewhere hf hn hX, h.block, h.direct,
    fun m d hm => h.contexts m d (Tree.openedContext?_replaceByNumber hm)⟩

end Ready

namespace Evaluable

variable {stackless : Bool} {contexts types vars : Nat} {i : NodeId} {c : ContextId} {p : Program}
variable {X : List Shape}

/-- **All steps of an evaluation keep what runs.** -/
theorem simplifying (X : List Shape) : Simplifying i (.scope c) fun p X' =>
    Evaluable stackless contexts types vars i c p X' ∧ Alike stackless false false X X' where
  shows h := h.1.ready.shows
  fold := by
    rintro p Y s b ⟨h, ha⟩ hs hb
    obtain ⟨X', x, hr, hX'⟩ := h.ready.fold hs hb
    exact ⟨X', x, hr, hX'.fewer, ⟨hX'.ready, h.closed⟩, ha.trans hX'.alike⟩
  simplify := by
    rintro p Y s t ⟨h, ha⟩ hs ht
    obtain ⟨X', x, hr, hX'⟩ := h.ready.simplifyLogical hs ht
    exact ⟨X', x, hr, hX'.fewer, ⟨hX'.ready, h.closed⟩, ha.trans hX'.alike⟩
  decide := by
    rintro p Y s ⟨h, ha⟩ hs hk
    refine (h.decideBranch hs hk).imp_right ?_
    rintro ⟨p', X', hrun, hX', hw⟩
    exact ⟨p', X', hrun, hX'.fewer, ⟨hX'.ready, hw⟩, ha.trans hX'.alike⟩
  test := by
    rintro p Y s b ⟨h, ha⟩ hs hk
    obtain ⟨X', hX'⟩ := h.ready.replaceTest (b := b) hs hk
    exact ⟨X', hX'.fewer, ⟨hX'.ready, h.closed⟩, ha.trans hX'.alike⟩
  elsewhere := fun ⟨h, ha⟩ hf hn hX => ⟨⟨h.ready.replaceElsewhere hf hn hX, h.closed⟩, ha⟩

end Evaluable

/-! ## Programs -/

/-- **The evaluation of a statement tree ends, and what runs stays**: whatever atoms are true, the
statements that ran before, with those ahead of conditions, run behind it in the same order. -/
theorem Program.evaluate_trace {p : Program} {i : NodeId} {c : ContextId} {body : List Shape}
    (hs : p.tree.Shows (.node i (.scope c) body))
    (hb : Block (isStackless body) false false body) (hp : p.Closed) :
    ∃ rounds p' body', Evaluating.evaluate i p = .ok rounds p' ∧
      p'.tree.Shows (.node i (.scope c) body') ∧
      Block (isStackless body) false false body' ∧
      ∀ σ, (trace σ false false body').1 = (trace σ false false body).1 := by
  have h : Evaluable (isStackless body) p.symbols.contexts.size p.symbols.types.size
      p.symbols.vars.size i c p body := ⟨⟨hs, hb, fun hst => hst, hp.contexts⟩, hp.symbols⟩
  obtain ⟨rounds, p', body', hrun, ⟨h', ha⟩, -⟩ :=
    (Evaluable.simplifying body).evaluate ⟨h, .refl hb⟩
  exact ⟨rounds, p', body', hrun, h'.ready.shows, ha.right, fun σ => by rw [ha.same]⟩

open Surface in
/-- A chain of which each branch is rewritten in another way, but for the one that has statements
ahead of its condition. -/
def deciding : ProgramForm where
  globals := []
  types := []
  functions := [{
    name := "decide"
    key := "decide"
    inside? := none
    parameters := [⟨"p", some "i64"⟩, ⟨"q", some "i64"⟩]
    returnType? := some "i64"
    body? :=
      let literal (v : Word) : Form := .number (.integer v) .i64
      let store (name : String) (v : Word) : Form :=
        .operator .assign (.reference name) (literal v)
      some [
        .ifBranch (.operator .less (literal 2) (literal 1)) [store "p" 1] [],
        .elseIf (.operator .and (.operator .less (literal 1) (literal 2)) (.reference "p"))
          [store "p" 2] [],
        .elseIf (.operator .less (.reference "p") (.reference "q")) [store "p" 3] [store "q" 4],
        .elseIf (literal 0) [store "p" 5] [],
        .elseIf (literal 1) [store "p" 6] [],
        .otherwise [store "p" 7],
        .retValue (.reference "p")] }]

theorem deciding_checked : (deciding.program?.any fun (p, i) =>
    let body := (p.tree.shape 9 i).parts
    p.tree.kind i == .scope 1 && p.tree.isShown 9 (p.tree.shape 9 i) &&
      isBlock (isStackless body) false false body && p.isClosed) = true := by cbv

/-- So the same statements of it run behind the evaluation. -/
theorem evaluate_trace_deciding : ∃ (p : Program) (i : NodeId) (body : List Shape),
    p.tree.Shows (.node i (.scope 1) body) ∧ Block (isStackless body) false false body ∧
      p.Closed ∧ ∃ rounds p' body', Evaluating.evaluate i p = .ok rounds p' ∧
        p'.tree.Shows (.node i (.scope 1) body') ∧ Block (isStackless body) false false body' ∧
        ∀ σ, (trace σ false false body').1 = (trace σ false false body).1 := by
  obtain ⟨⟨p, i⟩, -, hw⟩ := (Option.any_eq_true _ _).mp deciding_checked
  simp only [Bool.and_eq_true, beq_iff_eq] at hw
  obtain ⟨⟨⟨hk, hs⟩, hb⟩, hp⟩ := hw
  have hs : p.tree.Shows (.node i (.scope 1) (p.tree.shape 9 i).parts) :=
    hk ▸ Tree.shows_of_isShown hs
  have hb := block_of_isBlock _ hb
  have hp := Program.closed_of_isClosed hp
  exact ⟨p, i, _, hs, hb, hp, Program.evaluate_trace hs hb hp⟩

end Codegen
