import Codegen.Proofs.Evaluation.Step
import Codegen.Proofs.Tree.Read
import Codegen.Surface.Elaborate

/-!
# Rounds of an evaluation

Each pass of an evaluation takes steps of one kind, and each step leaves less to simplify. So
whatever the steps keep, the rounds come to an end with it, and there no pass finds anything to do.

* `Simplifying`: **what all steps of an evaluation keep**;
* `Passed`: what a pass leaves, and that it changed nothing if it tells so;
* `Simplifying.foldOperators`, `simplifyLogic`, `decideBranches`, `decideProbes`: the passes;
* `Settled`: trees in which no step is possible;
* `Simplifying.evaluate`: **the evaluation ends in a settled tree, and a second one leaves it**.
-/

namespace Codegen

open Shape

/-! ## Steps and passes -/

/-- **What all steps of an evaluation keep**, of a program and of the body that its tree shows. Each
step in the body leaves less to simplify; a literal may be put elsewhere too. -/
structure Simplifying (i : NodeId) (top : NodeKind) (I : Program → List Shape → Prop) : Prop where
  shows : ∀ {p X}, I p X → p.tree.Shows (.node i top X)
  fold : ∀ {p X s b}, I p X → s ∈ subs X → p.tree.outcome? i s.id = some b →
    ∃ X' x, Rewrites [s] [x] X X' ∧ openings X' < openings X ∧
      I { p with tree := p.tree.replaceByNumber s.id (Tree.truth b) } X'
  simplify : ∀ {p X s t}, I p X → s ∈ subs X → p.tree.simplifyLogical? s.id = some t →
    ∃ X' x, Rewrites [s] [x] X X' ∧ openings X' < openings X ∧ I { p with tree := t } X'
  decide : ∀ {p X s}, I p X → s ∈ subs X → s.kind.isConditional = true →
    Evaluating.decideBranch s.id p = .ok false p ∨
      ∃ p' X', Evaluating.decideBranch s.id p = .ok true p' ∧ openings X' < openings X ∧ I p' X'
  test : ∀ {p X s b}, I p X → s ∈ subs X → s.kind = .compiles →
    ∃ X', openings X' < openings X ∧
      I { p with tree := p.tree.replaceByNumber s.id (Tree.truth b) } X'
  elsewhere : ∀ {p X f n q b}, I p X → Tree.Forest p.tree f → n ∈ f q → n ∉ ids X →
    I { p with tree := p.tree.replaceByNumber n (Tree.truth b) } X

/-- **What a pass leaves**: there is less to simplify if it tells so, and else all is as it was, as
there was nothing to do. -/
structure Passed (I N : Program → List Shape → Prop) (p : Program) (X : List Shape) (changed : Bool)
    (p' : Program) (X' : List Shape) : Prop where
  kept : I p' X'
  fewer : openings X' + changed.toNat ≤ openings X
  idle : changed = false → p' = p ∧ X' = X ∧ N p X

/-- What becomes of a program in a pass. -/
def Passing (I N : Program → List Shape → Prop) (p : Program) (X : List Shape)
    (g : Evaluating Bool) : Prop :=
  ∃ changed p' X', g p = .ok changed p' ∧ Passed I N p X changed p' X'

/-- **A tree in which no step is possible.** -/
structure Settled (i : NodeId) (p : Program) (X : List Shape) : Prop where
  folded : ∀ s ∈ subs X, p.tree.outcome? i s.id = none
  simplified : ∀ s ∈ subs X, p.tree.simplifyLogical? s.id = none
  decided : ∀ s ∈ subs X, s.kind.isConditional = true →
    Evaluating.decideBranch s.id p = .ok false p
  probed : ∀ s ∈ subs X, s.kind ≠ .compiles

theorem Passed.trans {I N M : Program → List Shape → Prop} {p p' p'' : Program}
    {X X' X'' : List Shape} {b b' : Bool} (h : Passed I N p X b p' X')
    (h' : Passed I M p' X' b' p'' X'') :
    Passed I (fun p X => N p X ∧ M p X) p X (b || b') p'' X'' := by
  refine ⟨h'.kept, ?_, fun hor => ?_⟩
  · have h₁ := h.fewer
    have h₂ := h'.fewer
    have hor : (b || b').toNat ≤ b.toNat + b'.toNat := by cases b <;> cases b' <;> decide
    omega
  · obtain ⟨hb, hb'⟩ := Bool.or_eq_false_iff.mp hor
    obtain ⟨rfl, rfl, hN⟩ := h.idle hb
    obtain ⟨rfl, rfl, hM⟩ := h'.idle hb'
    exact ⟨rfl, rfl, hN, hM⟩

theorem Passed.imp {I N M : Program → List Shape → Prop} {p p' : Program} {X X' : List Shape}
    {b : Bool} (h : Passed I N p X b p' X') (hM : N p X → M p X) : Passed I M p X b p' X' :=
  ⟨h.kept, h.fewer, fun hb => (h.idle hb).imp_right (And.imp_right hM)⟩

/-! ## Changes of many nodes -/

/-- What comes ahead of a member of a list is in what comes ahead of it in a list that contains the
list. -/
theorem sublist_ahead {as ls rs : List NodeId} {n : NodeId}
    (h : (as ++ [n]).Sublist (ls ++ n :: rs)) (hn : (ls ++ n :: rs).Nodup) : as.Sublist ls := by
  rw [List.nodup_middle, List.nodup_cons, List.mem_append, not_or] at hn
  obtain ⟨xs, ys, he, hxs, hys⟩ := List.sublist_append_iff.mp h
  rcases List.eq_nil_or_concat ys with rfl | ⟨ys, y, rfl⟩
  · refine absurd (hxs.subset (?_ : n ∈ xs)) hn.1.1
    rw [← List.append_nil xs, ← he]
    simp
  · rw [List.concat_eq_append, ← List.append_assoc] at he
    obtain ⟨rfl, hy⟩ := List.append_inj' he rfl
    obtain rfl : n = y := by simpa using hy
    cases ys with
    | nil => simpa using hxs
    | cons z ys =>
      rw [List.concat_eq_append, List.cons_append] at hys
      have hmem : n ∈ ys ++ [n] := by simp
      rcases List.sublist_cons_iff.mp hys with hys | ⟨r, hr, hys⟩
      · exact absurd (hys.subset (List.mem_cons_of_mem _ hmem)) hn.1.2
      · obtain ⟨-, rfl⟩ := List.cons.inj hr
        exact absurd (hys.subset hmem) hn.1.2

theorem Shape.Rewrites.ahead {s x : Shape} {X X' : List Shape} {ns : List NodeId}
    (hr : Rewrites [s] [x] X X') (hd : (ids X).Nodup) (hns : (ns ++ [s.id]).Sublist (ids X)) :
    ns.Sublist (ids X') := by
  obtain ⟨ls, rs, h₁, h₂⟩ := hr.ids_eq
  simp only [ids_cons, ids_nil, List.append_nil, List.append_assoc, List.cons_append] at h₁
  rw [h₁] at hns hd
  rw [h₂, List.append_assoc]
  exact (sublist_ahead hns hd).trans (List.sublist_append_left _ _)

/-- A change of a node, if it is one, with the record of it. -/
def Tree.tryChange (change : Tree → NodeId → Option Tree) (a : Bool × Tree) (n : NodeId) :
    Bool × Tree :=
  (change a.2 n).elim a (true, ·)

namespace Simplifying

variable {i : NodeId} {top : NodeKind} {I N : Program → List Shape → Prop} {p p' : Program}
variable {X X' : List Shape} {ns : List NodeId}

section Changes

variable (hI : Simplifying i top I) (change : Tree → NodeId → Option Tree)
variable (hchange : ∀ {p X n t}, I p X → n ∈ ids X → change p.tree n = some t →
  ∃ X' s x, s.id = n ∧ Rewrites [s] [x] X X' ∧ openings X' < openings X ∧ I { p with tree := t } X')
include hI hchange

/-- The inner nodes change first, so each node is still in the tree when its turn comes. -/
theorem tryChanges (ns : List NodeId) (b : Bool) (h : I p X)
    (hns : ns.reverse.Sublist (ids X)) :
    ∃ X', I { p with tree := (ns.foldl (Tree.tryChange change) (b, p.tree)).2 } X' ∧
      openings X' + (ns.foldl (Tree.tryChange change) (b, p.tree)).1.toNat ≤
        openings X + b.toNat ∧
      ((ns.foldl (Tree.tryChange change) (b, p.tree)).1 = false → b = false ∧
        (ns.foldl (Tree.tryChange change) (b, p.tree)).2 = p.tree ∧ X' = X ∧
        ∀ n ∈ ns, change p.tree n = none) := by
  induction ns generalizing b p X with
  | nil => exact ⟨X, h, Nat.le_refl _, fun hb => ⟨hb, rfl, rfl, by simp⟩⟩
  | cons n ns ih =>
    rw [List.reverse_cons] at hns
    rw [List.foldl_cons]
    cases ht : change p.tree n with
    | none =>
      rw [show Tree.tryChange change (b, p.tree) n = (b, p.tree) by simp [Tree.tryChange, ht]]
      obtain ⟨X', hX', hfewer, hidle⟩ := ih b h ((List.sublist_append_left _ _).trans hns)
      refine ⟨X', hX', hfewer, fun hb => ?_⟩
      obtain ⟨hb, htree, hsame, hnone⟩ := hidle hb
      exact ⟨hb, htree, hsame, List.forall_mem_cons.mpr ⟨ht, hnone⟩⟩
    | some t =>
      rw [show Tree.tryChange change (b, p.tree) n = (true, t) by simp [Tree.tryChange, ht]]
      obtain ⟨X', s, x, rfl, hr, hless, hX'⟩ := hchange h (hns.subset (by simp)) ht
      obtain ⟨X'', hX'', hfewer, hidle⟩ := ih (p := { p with tree := t }) true hX'
        (hr.ahead (hI.shows h).nodup_below hns)
      refine ⟨X'', hX'', ?_, fun hb => absurd (hidle hb).1 (by decide)⟩
      simp only [Bool.toNat_true] at hfewer
      omega

/-- **A pass over the nodes of some constructs.** -/
theorem changeAll (q : NodeKind → Bool) (h : I p X) :
    ∃ X', Passed I (fun p X => ∀ s ∈ subs X, q s.kind = true → change p.tree s.id = none) p X
      (Tree.changeAll change p.tree (p.tree.findAll i q).reverse).1
      { p with tree := (Tree.changeAll change p.tree (p.tree.findAll i q).reverse).2 } X' := by
  have hshows := hI.shows h
  obtain ⟨X', hX', hfewer, hidle⟩ := hI.tryChanges change hchange
    (p.tree.findAll i q).reverse false h (by simpa using hshows.findAll_sublist q)
  refine ⟨X', hX', hfewer, fun hb => ?_⟩
  obtain ⟨-, htree, hsame, hnone⟩ := hidle hb
  refine ⟨congrArg (fun t => { p with tree := t }) htree, hsame, fun s hs hq => hnone s.id ?_⟩
  simpa using hshows.mem_findAll.mpr ⟨s, hs, rfl, hq⟩

end Changes

/-! ## The passes -/

section Passes

variable (hI : Simplifying i top I) (h : I p X)
include hI h

/-- **The pass that folds operators.** -/
theorem foldOperators : Passing I (fun p X => ∀ s ∈ subs X, p.tree.outcome? i s.id = none) p X
    (Evaluating.pass (·.foldOperators i)) := by
  obtain ⟨X', hX'⟩ := hI.changeAll (·.foldOperator? i)
    (fun {p X n t} h hn hc => by
      rw [Tree.foldOperator?, Option.map_eq_some_iff] at hc
      obtain ⟨b, hb, rfl⟩ := hc
      obtain ⟨s, hs, rfl⟩ := mem_ids.mp hn
      obtain ⟨X', x, hX'⟩ := hI.fold h hs hb
      exact ⟨X', s, x, rfl, hX'⟩) (·.operator?.isSome) h
  refine ⟨_, _, X', rfl, hX'.imp fun hnone s hs => ?_⟩
  cases ho : s.kind.operator? with
  | none => simp [Tree.outcome?, (hI.shows h).kind hs, ho]
  | some o => simpa [Tree.foldOperator?] using hnone s hs (by simp [ho])

/-- **The pass that simplifies logical operators.** All of them are below another node. -/
theorem simplifyLogic :
    Passing I (fun p X => ∀ s ∈ subs X, p.tree.simplifyLogical? s.id = none) p X
      (Evaluating.pass (·.simplifyLogic i)) := by
  have hshows := hI.shows h
  obtain ⟨X', hX'⟩ := hI.changeAll
    (fun t n => if (t.parent? n).isSome then t.simplifyLogical? n else none)
    (fun {p X n t} h hn hc => by
      split at hc
      · obtain ⟨s, hs, rfl⟩ := mem_ids.mp hn
        obtain ⟨X', x, hX'⟩ := hI.simplify h hs hc
        exact ⟨X', s, x, rfl, hX'⟩
      · cases hc) (fun k => k.operator?.any (·.isLogical)) h
  refine ⟨_, _, X', rfl, hX'.imp fun hnone s hs => ?_⟩
  cases ho : s.kind.operator?.any (·.isLogical) with
  | false =>
    have hfilter : s.kind.operator?.filter (·.isLogical) = none := by
      cases hk : s.kind.operator? with
      | none => rfl
      | some o => simpa [hk] using ho
    simp [Tree.simplifyLogical?, hshows.kind hs, hfilter]
  | true =>
    have hparent : (p.tree.parent? s.id).isSome = true := by
      obtain ⟨f, hf, -⟩ := hshows.displays
      obtain ⟨q, as, bs, hq⟩ := hshows.exists_siblings hf hs
      rw [hf.parent.mpr (show s.id ∈ f q by simp [hq])]
      rfl
    simpa [hparent] using hnone s hs ho

/-! ## The pass over branches -/

/-- The first branch that is decided. -/
theorem decideFirst (hns : ∀ n ∈ ns, ∃ s ∈ subs X, s.id = n ∧ s.kind.isConditional = true) :
    (Evaluating.decideFirst ns p = .ok false p ∧
      ∀ n ∈ ns, Evaluating.decideBranch n p = .ok false p) ∨
    ∃ p' X', Evaluating.decideFirst ns p = .ok true p' ∧ openings X' < openings X ∧ I p' X' := by
  induction ns with
  | nil => exact .inl ⟨rfl, by simp⟩
  | cons n ns ih =>
    rw [List.forall_mem_cons] at hns
    obtain ⟨⟨s, hs, rfl, hk⟩, hrest⟩ := hns
    rcases hI.decide h hs hk with hleft | ⟨p', X', hrun, hX'⟩
    · have hnext : Evaluating.decideFirst (s.id :: ns) p = Evaluating.decideFirst ns p := by
        simp only [Evaluating.decideFirst, bind, EStateM.bind, hleft, Bool.false_eq_true, if_false]
      rw [hnext]
      exact (ih hrest).imp_left fun ⟨hrun, hall⟩ =>
        ⟨hrun, List.forall_mem_cons.mpr ⟨hleft, hall⟩⟩
    · refine .inr ⟨p', X', ?_, hX'⟩
      simp only [Evaluating.decideFirst, bind, EStateM.bind, hrun, if_true]
      rfl

/-- **All branches**: each that is decided leaves less to simplify, so the pass ends. -/
theorem decideBranches {fuel : Nat} (hfuel : openings X < fuel) :
    Passing I (fun p X => ∀ s ∈ subs X, s.kind.isConditional = true →
      Evaluating.decideBranch s.id p = .ok false p) p X (Evaluating.decideBranches i fuel) := by
  induction fuel generalizing p X with
  | zero => omega
  | succ fuel ih =>
    have hshows := hI.shows h
    rcases hI.decideFirst h fun n hn => hshows.mem_findAll.mp hn with
      ⟨hleft, hall⟩ | ⟨p', X', hrun, hless, hX'⟩
    · refine ⟨false, p, X, ?_, h, Nat.le_refl _, fun _ => ⟨rfl, rfl, fun s hs hk =>
        hall _ (hshows.mem_findAll.mpr ⟨s, hs, rfl, hk⟩)⟩⟩
      simp only [Evaluating.decideBranches, bind, EStateM.bind, get, getThe, MonadStateOf.get,
        EStateM.get, hleft, Bool.false_eq_true, if_false]
      rfl
    · obtain ⟨changed, p'', X'', hrun', hX''⟩ := ih hX' (by omega)
      refine ⟨true, p'', X'', ?_, hX''.kept, ?_, fun hb => absurd hb (by decide)⟩
      · simp only [Evaluating.decideBranches, bind, EStateM.bind, get, getThe, MonadStateOf.get,
          EStateM.get, hrun, if_true, hrun']
        rfl
      · have hmore := hX''.fewer
        simp only [Bool.toNat_true]
        omega

/-! ## The pass over tests for well-formedness -/

omit hI h in
theorem decideProbe_eq (n : NodeId) (p : Program) : ∃ b, Evaluating.decideProbe n p =
    .ok () { p with tree := p.tree.replaceByNumber n (Tree.truth b) } := ⟨_, rfl⟩

/-- **A literal in the place of a test.** A test may be below another one that has become a literal
already, and so no longer in the body. -/
theorem replaceProbe {f : NodeId → List NodeId} {n q : NodeId} {b : Bool}
    (hf : Tree.Forest p.tree f) (hn : n ∈ f q) (hk : p.tree.kind n = .compiles) :
    ∃ X', openings X' + (n ∈ ids X : Bool).toNat ≤ openings X ∧
      I { p with tree := p.tree.replaceByNumber n (Tree.truth b) } X' := by
  by_cases hX : n ∈ ids X
  · obtain ⟨s, hs, rfl⟩ := mem_ids.mp hX
    rw [(hI.shows h).kind hs] at hk
    obtain ⟨X', hless, hX'⟩ := hI.test (b := b) h hs hk
    refine ⟨X', ?_, hX'⟩
    simp only [hX, decide_true, Bool.toNat_true]
    omega
  · exact ⟨X, by simp [hX], hI.elsewhere h hf hn hX⟩

/-- The tests one after another: each of them stays linked until its turn comes. Behind the first
one there is less to simplify, if it is in the body. -/
theorem decideEach {f : NodeId → List NodeId} (hf : Tree.Forest p.tree f)
    (hns : ∀ n ∈ ns, p.tree.kind n = .compiles ∧ ∃ q, n ∈ f q) (hd : ns.Nodup) :
    ∃ p' X', (ns.forM Evaluating.decideProbe) p = .ok () p' ∧ I p' X' ∧
      openings X' + (ns.head?.any (· ∈ ids X)).toNat ≤ openings X := by
  induction ns generalizing p X f with
  | nil => exact ⟨p, X, rfl, h, Nat.le_refl _⟩
  | cons n ns ih =>
    obtain ⟨hk, q, hn⟩ := hns n List.mem_cons_self
    obtain ⟨b, hrun⟩ := decideProbe_eq n p
    obtain ⟨X', hless, hX'⟩ := hI.replaceProbe (b := b) h hf hn hk
    rw [List.nodup_cons] at hd
    have hrest (m) (hm : m ∈ ns) : (p.tree.replaceByNumber n (Tree.truth b)).kind m = .compiles ∧
        ∃ q, m ∈ (f q).map fun m => if m = n then p.tree.size else m := by
      obtain ⟨hkm, r, hr⟩ := hns m (List.mem_cons_of_mem _ hm)
      refine ⟨?_, r, List.mem_map.mpr ⟨m, hr, if_neg ?_⟩⟩
      · rw [Tree.kind_replaceByNumber, if_neg (Nat.ne_of_lt (hf.inside hr).2), hkm]
      · rintro rfl
        exact hd.1 hm
    obtain ⟨p'', X'', hrun', hX'', hmore⟩ := ih (p := { p with
      tree := p.tree.replaceByNumber n (Tree.truth b) }) hX' (hf.replaceByNumber hn) hrest hd.2
    refine ⟨p'', X'', ?_, hX'', ?_⟩
    · simp only [List.forM_eq_forM, List.forM_cons, bind, EStateM.bind, hrun] at hrun' ⊢
      exact hrun'
    · rw [List.head?_cons, Option.any_some]
      omega

/-- **All tests**: the first of them is in the body, so there is less to simplify behind them. -/
theorem decideProbes : Passing I (fun _ X => ∀ s ∈ subs X, s.kind ≠ .compiles) p X
    (Evaluating.decideProbes i) := by
  have hshows := hI.shows h
  obtain ⟨f, hf, hd⟩ := hshows.displays
  have hsub := hshows.findAll_sublist (· == .compiles)
  have hall (n) (hn : n ∈ p.tree.findAll i (· == .compiles)) :
      p.tree.kind n = .compiles ∧ ∃ q, n ∈ f q := by
    obtain ⟨s, hs, rfl, hk⟩ := hshows.mem_findAll.mp hn
    obtain ⟨q, hq, hsq⟩ := exists_parent (r := node i top X) hs
    exact ⟨by simpa [hshows.kind hs] using hk, q.id, hd.mem hq hsq⟩
  obtain ⟨p', X', hrun, hX', hless⟩ :=
    hI.decideEach h hf hall (hsub.nodup hshows.nodup_below)
  cases hns : p.tree.findAll i (· == .compiles) with
  | nil =>
    refine ⟨false, p, X, ?_, h, Nat.le_refl _, fun _ => ⟨rfl, rfl, fun s hs hk => ?_⟩⟩
    · simp only [Evaluating.decideProbes, bind, EStateM.bind, get, getThe, MonadStateOf.get,
        EStateM.get, hns]
      rfl
    · have hmem : s.id ∈ p.tree.findAll i (· == .compiles) :=
        hshows.mem_findAll.mpr ⟨s, hs, rfl, by simp [hk]⟩
      simp [hns] at hmem
  | cons n ns =>
    have hn : n ∈ ids X := hsub.subset (hns ▸ List.mem_cons_self)
    rw [hns] at hrun hless
    refine ⟨true, p', X', ?_, hX', ?_, fun hb => absurd hb (by decide)⟩
    · simp only [Evaluating.decideProbes, bind, EStateM.bind, get, getThe, MonadStateOf.get,
        EStateM.get, hns, hrun]
      rfl
    · simpa [hn] using hless

/-! ## Rounds -/

/-- **One round.** -/
theorem evaluateOnce : Passing I (Settled i) p X (Evaluating.evaluateOnce i) := by
  obtain ⟨b₁, p₁, X₁, hrun₁, hX₁⟩ := hI.foldOperators h
  obtain ⟨b₂, p₂, X₂, hrun₂, hX₂⟩ := hI.simplifyLogic hX₁.kept
  have hfuel : openings X₂ < p₂.tree.size + 1 :=
    Nat.lt_succ_of_le (Nat.le_trans openings_le_length (hI.shows hX₂.kept).length_ids_le)
  obtain ⟨b₃, p₃, X₃, hrun₃, hX₃⟩ := hI.decideBranches hX₂.kept hfuel
  obtain ⟨b₄, p₄, X₄, hrun₄, hX₄⟩ := hI.decideProbes hX₃.kept
  refine ⟨b₁ || b₂ || b₃ || b₄, p₄, X₄, ?_, (((hX₁.trans hX₂).trans hX₃).trans hX₄).imp
    fun ⟨⟨⟨hfolded, hsimplified⟩, hdecided⟩, hprobed⟩ =>
      ⟨hfolded, hsimplified, hdecided, hprobed⟩⟩
  simp only [Evaluating.evaluateOnce, bind, EStateM.bind, hrun₁, hrun₂, get, getThe,
    MonadStateOf.get, EStateM.get, hrun₃, hrun₄]
  rfl

/-- **Rounds end**: each but the last leaves less to simplify, and the last finds nothing to do. -/
theorem evaluateWithin {fuel : Nat} (hfuel : openings X < fuel) :
    ∃ rounds p' X', Evaluating.evaluateWithin i fuel p = .ok rounds p' ∧ I p' X' ∧
      Settled i p' X' ∧ Evaluating.evaluateOnce i p' = .ok false p' := by
  induction fuel generalizing p X with
  | zero => omega
  | succ fuel ih =>
    obtain ⟨changed, p', X', hrun, hX'⟩ := hI.evaluateOnce h
    cases changed with
    | false =>
      obtain ⟨rfl, rfl, hsettled⟩ := hX'.idle rfl
      refine ⟨0, p', X', ?_, hX'.kept, hsettled, hrun⟩
      simp only [Evaluating.evaluateWithin, bind, EStateM.bind, hrun, Bool.false_eq_true, if_false]
      rfl
    | true =>
      have hfewer := hX'.fewer
      simp only [Bool.toNat_true] at hfewer
      obtain ⟨rounds, p'', X'', hrun', hX''⟩ := ih hX'.kept (by omega)
      refine ⟨rounds + 1, p'', X'', ?_, hX''⟩
      simp only [Evaluating.evaluateWithin, bind, EStateM.bind, hrun, if_true, hrun']
      rfl

/-- **The evaluation ends in a settled tree, and a second one leaves it as it is.** -/
theorem evaluate : ∃ rounds p' X', Evaluating.evaluate i p = .ok rounds p' ∧ I p' X' ∧
    Settled i p' X' ∧ Evaluating.evaluate i p' = .ok 0 p' := by
  have hfuel : openings X < p.tree.size + 2 := Nat.lt_add_right 1
    (Nat.lt_succ_of_le (Nat.le_trans openings_le_length (hI.shows h).length_ids_le))
  obtain ⟨rounds, p', X', hrun, hX', hsettled, hidle⟩ := hI.evaluateWithin h hfuel
  refine ⟨rounds, p', X', ?_, hX', hsettled, ?_⟩
  · simp only [Evaluating.evaluate, bind, EStateM.bind, get, getThe, MonadStateOf.get,
      EStateM.get, hrun]
  · simp only [Evaluating.evaluate, Evaluating.evaluateWithin, bind, EStateM.bind, get, getThe,
      MonadStateOf.get, EStateM.get, hidle, Bool.false_eq_true, if_false]
    rfl

end Passes

end Simplifying

/-! ## Programs -/

/-- **A program that is closed**: the contexts that its tree and its symbols speak of exist. -/
structure Program.Closed (p : Program) : Prop where
  symbols : p.symbols.Closed
  contexts : ∀ m d, p.tree.openedContext? m = some d → d < p.symbols.contexts.size

/-- Do all contexts exist? -/
def Program.isClosed (p : Program) : Bool :=
  p.symbols.isClosed && (List.range p.tree.size).all fun m =>
    (p.tree.openedContext? m).all (· < p.symbols.contexts.size)

theorem Program.closed_of_isClosed {p : Program} (h : p.isClosed = true) : p.Closed := by
  simp only [isClosed, Bool.and_eq_true, List.all_eq_true, List.mem_range] at h
  refine ⟨SymbolTable.closed_of_isClosed h.1, fun m d hm => ?_⟩
  by_cases hlt : m < p.tree.size
  · simpa [hm] using h.2 m hlt
  · rw [Tree.openedContext?, Tree.kind, Tree.node_of_size_le (Nat.le_of_not_lt hlt)] at hm
    cases hm

theorem Program.Closed.presents {p : Program} {i : NodeId} {top : NodeKind} {X : List Shape}
    (h : p.Closed) (hX : p.tree.Shows (.node i top X)) :
    Presents p.symbols.contexts.size p.symbols.types.size p.symbols.vars.size i top p X :=
  ⟨hX, h.contexts, h.symbols⟩

/-- The first function of a program, its body and its context. -/
def Surface.ProgramForm.program? (p : ProgramForm) : Option (Program × NodeId) :=
  match load p with
  | .error _ => none
  | .ok l => l.bodies.head?.map fun b => (⟨b.tree, l.symbols⟩, b.body)

end Codegen
