import Codegen.Proofs.Evaluation.Sweep
import Codegen.Proofs.Evaluation.Normal
import Codegen.Proofs.Symbol.Hints

/-!
# Tests in an evaluation

Each test for well-formedness is judged in the first round, by what the other passes of that round
leave below it: they also fold and simplify what is inside a test. So a test succeeds if there was
nothing wrong below it when the evaluation began, and fails if there was something that no operator
and no branch could take away; in between, it depends on what was taken away.

* `Program.Hinted`, `Evaluating.reduceOnce_hinted`: the passes give no types but those hinted at;
* `Lasting`: what keeps a test from succeeding, whatever is folded;
* `Program.evaluate_probes`: **each test is judged by what the first round leaves below it**;
* `not_probed_missing`: a test of a name without a meaning that succeeds.
-/

namespace Codegen

open Relation

/-! ## Types -/

/-- Programs whose variables may have taken the types that they hint at. -/
def Program.Hinted (p p' : Program) : Prop := p.symbols.Hinted p'.symbols

instance : IsPreorder Program Program.Hinted where
  refl p := refl_of SymbolTable.Hinted p.symbols
  trans _ _ _ := trans_of SymbolTable.Hinted

namespace Evaluating

open Program (Hinted)

variable {n body root : NodeId} {ns : List NodeId}

theorem modifyTree_hinted {k : Tree → Tree} : Along Hinted (modifyTree k) :=
  .modify fun p => refl_of SymbolTable.Hinted p.symbols

theorem pass_hinted {k : Tree → Bool × Tree} : Along Hinted (pass k) := by
  intro p b p' h
  cases h
  exact refl_of SymbolTable.Hinted p.symbols

theorem scoping_hinted {k : Scoping Unit} (h : Along SymbolTable.Hinted k) :
    Along Hinted (scoping k) := by
  intro p u p' hrun
  rw [scoping] at hrun
  split at hrun
  next u' symbols hk =>
    cases hrun
    exact h _ _ _ hk
  next => cases hrun

theorem inlineBody_hinted : Along Hinted (inlineBody n body) := by
  refine .bind .get fun p => ?_
  dsimp only
  split
  · split
    · exact .bind (scoping_hinted Scoping.merge_hinted) fun _ => modifyTree_hinted
    · exact modifyTree_hinted
  · exact modifyTree_hinted

theorem takeBranch_hinted : Along Hinted (takeBranch n) := by
  refine .bind .get fun p => .bind modifyTree_hinted fun _ => .bind .get fun p' => ?_
  dsimp only
  split
  · split
    · exact .bind inlineBody_hinted fun _ => .pure _
    · exact .bind modifyTree_hinted fun _ => .pure _
  · exact .pure _

theorem dropBranch_hinted : Along Hinted (dropBranch n) := by
  refine .bind .get fun p => ?_
  dsimp only
  split
  · split
    · exact .bind modifyTree_hinted fun _ => .pure _
    · exact .bind modifyTree_hinted fun _ => .bind inlineBody_hinted fun _ => .pure _
    · exact .pure _
  · exact .bind modifyTree_hinted fun _ => .pure _

theorem decideBranch_hinted : Along Hinted (decideBranch n) := by
  refine .bind .get fun p => ?_
  dsimp only
  split
  · exact .pure _
  · split
    · exact .pure _
    · split
      · exact dropBranch_hinted
      · exact takeBranch_hinted

theorem decideFirst_hinted : Along Hinted (decideFirst ns) := by
  induction ns with
  | nil => exact .pure _
  | cons n ns ih =>
    refine .bind decideBranch_hinted fun b => ?_
    split
    · exact .pure _
    · exact ih

theorem decideBranches_hinted {fuel : Nat} : Along Hinted (decideBranches root fuel) := by
  induction fuel with
  | zero => intro p b p' h; cases h
  | succ fuel ih =>
    refine .bind .get fun p => .bind decideFirst_hinted fun b => ?_
    split
    · exact .bind ih fun _ => .pure _
    · exact .pure _

/-- **The passes over operators and branches give no types but those hinted at.** -/
theorem reduceOnce_hinted : Along Hinted (reduceOnce root) :=
  .bind pass_hinted fun _ => .bind pass_hinted fun _ => .bind .get fun _ =>
    .bind decideBranches_hinted fun _ => .pure _

/-! ## What keeps a test from succeeding -/

variable {p p' : Program}

theorem isExchanged_of_isProblem (h : isProblem p n = true) :
    (p.tree.kind n).isNumber = false ∧ (p.tree.kind n).isExchanged = false := by
  rw [isProblem] at h
  cases hk : p.tree.kind n <;>
    simp_all [NodeKind.isNumber, NodeKind.isBranch, NodeKind.isExchanged]

/-- What keeps it from succeeding behind the passes did so before. -/
theorem isProblem_of_hinted (h : p.Hinted p') (hk : p'.tree.kind n = p.tree.kind n)
    (hn : isProblem p' n = true) : isProblem p n = true := by
  rw [isProblem, hk] at hn
  rw [isProblem]
  split at hn <;> simp_all [SymbolTable.Hinted.isUnresolved_of h]

/-- What keeps it from succeeding does so behind the passes, unless a type is hinted at. -/
theorem isProblem_hinted (h : p.Hinted p') (hk : p'.tree.kind n = p.tree.kind n)
    (hn : isProblem p n = true) (hno : ∀ v, p.tree.kind n = .reference v →
      p.symbols.vars[v]?.all (·.hint?.isNone) = true) : isProblem p' n = true := by
  rw [isProblem] at hn
  rw [isProblem, hk]
  cases hkind : p.tree.kind n with
  | reference v =>
    rw [hkind] at hn
    exact SymbolTable.Hinted.isUnresolved h hn (hno v hkind)
  | unresolvedName | unresolvedCall => rfl
  | _ => simp [hkind] at hn

end Evaluating

/-- Nothing between a node and one below it may be exchanged. -/
def Program.Firm (p : Program) (n u : NodeId) : Prop :=
  ∀ m ∈ p.tree.descendants n, u = m ∨ u ∈ p.tree.descendants m →
    (p.tree.kind m).isExchanged = false

/-- **What keeps a test from succeeding, whatever is decided**: there is no operator and no branch
between the two that may be exchanged, and no type is hinted at. -/
structure Lasting (p : Program) (n u : NodeId) : Prop where
  below : u ∈ p.tree.descendants n
  problem : Evaluating.isProblem p u = true
  unhinted : ∀ v, p.tree.kind u = .reference v → p.symbols.vars[v]?.all (·.hint?.isNone) = true
  firm : p.Firm n u

/-! ## Verdicts -/

variable {p p' : Program} {i n u : NodeId} {reduced : Bool}

theorem Reduced.stays (h : Reduced i p.tree reduced p') (ht : p.tree.Sound)
    (hu : u ∈ p.tree.descendants n) (hn : (p.tree.kind n).isExchanged = false)
    (hfirm : p.Firm n u) (hi : ReflTransGen p'.tree.Under n i) : u ∈ p'.tree.descendants n := by
  refine h.sound.mem_descendants.mpr (h.thinned.stays (ht.mem_descendants.mp hu) hn
    (fun m hm hum => hfirm m (ht.mem_descendants.mpr hm) ?_) hi)
  rcases reflTransGen_iff_eq_or_transGen.mp hum with rfl | hum
  · exact .inl rfl
  · exact .inr (ht.mem_descendants.mpr hum)

/-- **What a test finds behind the passes**, if it is still in the body. -/
theorem Reduced.compiles (h : Reduced i p.tree reduced p') (ht : p.tree.Sound)
    (hp : p.Hinted p') (hn : n ∈ p'.tree.findAll i (· == .compiles)) :
    n ∈ p.tree.findAll i (· == .compiles) ∧
      (p.compiles n = true → p'.compiles n = true) ∧
      ∀ u, Lasting p n u → p'.compiles n = false := by
  obtain ⟨hbelow, hk⟩ := h.sound.mem_findAll.mp hn
  have hk : p'.tree.kind n = .compiles := beq_iff_eq.mp hk
  have hlt : n < p.tree.size := by
    by_contra hlt
    have hnumber := h.thinned.made n (h.sound.below_lt hbelow) (Nat.le_of_not_lt hlt)
    rw [hk] at hnumber
    cases hnumber
  -- the constructs that count stay as they are
  have hkind {u : NodeId} (hu : u < p.tree.size)
      (hno : (p.tree.kind u).isExchanged = false ∨ (p'.tree.kind u).isExchanged = false) :
      p'.tree.kind u = p.tree.kind u := by
    have hturn := h.thinned.kind u hu
    exact hturn.eq_of_isExchanged (hno.elim id fun hno => hturn.isExchanged_eq ▸ hno)
  have hcompiles : p.tree.kind n = .compiles := (hkind hlt (.inr (by rw [hk]; rfl))).symm.trans hk
  refine ⟨ht.mem_findAll.mpr ⟨h.thinned.below_old ht hlt hbelow, beq_iff_eq.mpr hcompiles⟩,
    fun hclean => ?_, fun u hu => ?_⟩
  · -- what a test finds behind the passes was there before
    rw [Program.compiles, Bool.not_eq_true', List.any_eq_false] at hclean ⊢
    intro u hu hproblem
    rw [h.sound.mem_descendants] at hu
    obtain ⟨hnumber, hexchanged⟩ := Evaluating.isExchanged_of_isProblem hproblem
    have hold : u < p.tree.size := by
      by_contra hold
      rw [h.thinned.made u (h.sound.below_lt hu) (Nat.le_of_not_lt hold)] at hnumber
      cases hnumber
    exact hclean u (ht.mem_descendants.mpr (h.thinned.below_old ht hold hu))
      (Evaluating.isProblem_of_hinted hp (hkind hold (.inr hexchanged)) hproblem)
  · -- what lasts is still there
    rw [Program.compiles, Bool.not_eq_false', List.any_eq_true]
    refine ⟨u, h.stays ht hu.below (by rw [hcompiles]; rfl) hu.firm hbelow.to_reflTransGen,
      Evaluating.isProblem_hinted hp (hkind ?_ ?_) hu.problem hu.unhinted⟩
    · exact ht.below_lt (ht.mem_descendants.mp hu.below)
    · exact .inl (Evaluating.isExchanged_of_isProblem hu.problem).2

/-- **Each test is judged in the first round**, by what the passes over operators and branches leave
below it. A test is still in the body then if no operator and no branch is around it. It succeeds if
it would have succeeded ahead of the passes, and fails if something kept it from succeeding that
lasts. The evaluation goes on from there, and no test is left. -/
theorem Program.evaluate_probes (ht : p.tree.Sound) (hp : p.Closed) (i : NodeId) :
    ∃ reduced probed p₁ p₂ rounds p',
      Evaluating.reduceOnce i p = .ok reduced p₁ ∧
      Evaluating.decideProbes i p₁ = .ok probed p₂ ∧
      Judged i p₁ p₂ ∧ p₂.tree.findAll i (· == .compiles) = [] ∧
      (∀ n ∈ p.tree.findAll i (· == .compiles), (p.tree.kind i).isExchanged = false →
        p.Firm i n → n ∈ p₁.tree.findAll i (· == .compiles)) ∧
      (∀ n ∈ p₁.tree.findAll i (· == .compiles),
        n ∈ p.tree.findAll i (· == .compiles) ∧
        (p.compiles n = true → p₁.compiles n = true) ∧
        ∀ u, Lasting p n u → p₁.compiles n = false) ∧
      Evaluating.evaluate i p = .ok rounds p' ∧
      ((reduced || probed) = false ∧ rounds = 0 ∧ p' = p₂ ∨
        (reduced || probed) = true ∧ ∃ r, rounds = r + 1 ∧ Evaluating.evaluate i p₂ = .ok r p') ∧
      p'.tree.findAll i (· == .compiles) = [] := by
  obtain ⟨reduced, probed, p₁, p₂, hreduce, h₁, hprobe, hjudged, hround, ht₂, hp₂, -⟩ :=
    Evaluating.evaluateOnce_ends ht hp i
  obtain ⟨rounds, p', hrun, hleft⟩ := Evaluating.evaluate_ends ht hp i
  refine ⟨reduced, probed, p₁, p₂, rounds, p', hreduce, hprobe, hjudged,
    hjudged.findAll_eq_nil h₁.sound ht₂, fun n hn hi hfirm => ?_,
    fun n hn => h₁.compiles ht (Evaluating.reduceOnce_hinted _ _ _ hreduce) hn, hrun,
    Evaluating.evaluate_behind hround ht₂ hp₂ hrun, hleft⟩
  obtain ⟨hbelow, hk⟩ := ht.mem_findAll.mp hn
  have hk : p.tree.kind n = .compiles := beq_iff_eq.mp hk
  have hkind := (h₁.thinned.kind n (ht.below_lt hbelow)).eq_of_isExchanged (by rw [hk]; rfl)
  have hstays := h₁.stays ht (ht.mem_descendants.mpr hbelow) hi hfirm .refl
  exact h₁.sound.mem_findAll.mpr
    ⟨h₁.sound.mem_descendants.mp hstays, beq_iff_eq.mpr (hkind.trans hk)⟩

open Surface in
/-- A test of a name without a meaning, in a place where it does not matter. -/
def unheeded : ProgramForm := .ofBody [.retValue (.compiles [
  .operator .and (.name "missing" none) (.literal 0)])]

/-- Something keeps the test from succeeding when the evaluation begins. Behind the evaluation, the
statement that held it holds the literal of a success. -/
theorem unheeded_checked : (unheeded.program?.any fun (p, i) =>
    p.tree.isSound && p.isClosed &&
      match Evaluating.evaluate i p with
      | .ok _ p' => (p.tree.findAll i (· == .compiles)).any fun n =>
        !p.compiles n && (p.tree.parent? n).any fun q =>
          p.tree.children q == [n] && (p'.tree.descendants i).contains q &&
            (p'.tree.children q).map p'.tree.kind == [.number (.integer 1) .i64]
      | .error _ _ => false) = true := by cbv

/-- So its test is judged in the first round. -/
theorem evaluate_probes_unheeded : ∃ (p : Program) (i : NodeId), p.tree.Sound ∧ p.Closed ∧
    ∃ reduced probed p₁ p₂ rounds p',
      Evaluating.reduceOnce i p = .ok reduced p₁ ∧
      Evaluating.decideProbes i p₁ = .ok probed p₂ ∧
      Judged i p₁ p₂ ∧ p₂.tree.findAll i (· == .compiles) = [] ∧
      (∀ n ∈ p.tree.findAll i (· == .compiles), (p.tree.kind i).isExchanged = false →
        p.Firm i n → n ∈ p₁.tree.findAll i (· == .compiles)) ∧
      (∀ n ∈ p₁.tree.findAll i (· == .compiles),
        n ∈ p.tree.findAll i (· == .compiles) ∧
        (p.compiles n = true → p₁.compiles n = true) ∧
        ∀ u, Lasting p n u → p₁.compiles n = false) ∧
      Evaluating.evaluate i p = .ok rounds p' ∧
      ((reduced || probed) = false ∧ rounds = 0 ∧ p' = p₂ ∨
        (reduced || probed) = true ∧ ∃ r, rounds = r + 1 ∧ Evaluating.evaluate i p₂ = .ok r p') ∧
      p'.tree.findAll i (· == .compiles) = [] := by
  obtain ⟨⟨p, i⟩, -, hw⟩ := (Option.any_eq_true _ _).mp unheeded_checked
  simp only [Bool.and_eq_true] at hw
  obtain ⟨⟨ht, hp⟩, -⟩ := hw
  have ht := Tree.sound_of_isSound ht
  have hp := Program.closed_of_isClosed hp
  exact ⟨p, i, ht, hp, Program.evaluate_probes ht hp i⟩

/-- **A test succeeds with a name without a meaning below it**: the operator that the name is an
operand of is folded before the test is judged. -/
theorem not_probed_missing : ∃ (p : Program) (i n q m : NodeId) (rounds : Nat) (p' : Program),
    unheeded.program? = some (p, i) ∧ p.tree.Sound ∧ p.Closed ∧
      n ∈ p.tree.findAll i (· == .compiles) ∧ p.compiles n = false ∧ p.tree.children q = [n] ∧
      Evaluating.evaluate i p = .ok rounds p' ∧ q ∈ p'.tree.descendants i ∧
      p'.tree.children q = [m] ∧ p'.tree.kind m = .number (.integer 1) .i64 := by
  obtain ⟨⟨p, i⟩, hload, hw⟩ := (Option.any_eq_true _ _).mp unheeded_checked
  simp only [Bool.and_eq_true] at hw
  obtain ⟨⟨ht, hp⟩, hrun⟩ := hw
  split at hrun
  next rounds p' heval =>
    obtain ⟨n, hn, hany⟩ := List.any_eq_true.mp hrun
    simp only [Bool.and_eq_true, Bool.not_eq_true'] at hany
    obtain ⟨hfails, hparent⟩ := hany
    obtain ⟨q, -, hq⟩ := (Option.any_eq_true _ _).mp hparent
    simp only [Bool.and_eq_true, beq_iff_eq, List.contains_iff_mem, List.map_eq_singleton_iff] at hq
    obtain ⟨⟨hchild, hreached⟩, m, hm, hone⟩ := hq
    exact ⟨p, i, n, q, m, rounds, p', hload, Tree.sound_of_isSound ht,
      Program.closed_of_isClosed hp, hn, hfails, hchild, heval, hreached, hm, hone⟩
  next => cases hrun

end Codegen
