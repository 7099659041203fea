import Mathlib
import Codegen.Proofs.Control.Statement
import Codegen.Proofs.Round.Body
import Codegen.Proofs.Stream.Closed
import Codegen.Surface.Elaborate

/-!
# Functions do what they should

All constructs do what they should if their parts do, so all parts of a body do. The instructions of
a function are closed, so jumps have their labels, and the walk through them does what structured
execution of the body does. An execution is cut short when a loop has no rounds left. But then the
walk took at least as many steps as there were rounds, so the two agree without end as well.

* `Shape.LowersPart.performs`: **the instructions of a construct do what it does**, if those of its
  parts do;
* `Shape.LowersWithin.performs`: all parts of a body, by induction on their depth;
* `Closed.labelled`, `Tree.Shows.numbered`: what is known of the stream and of the body;
* `Lowered.follows`: the walk from the first instruction, for each number of rounds;
* `Lowered.walk_executes`: **the stream has the control flow of its source**.
-/

namespace Codegen

open Generating Shape

variable {o : Oracle} {R : Routine} {t : Tree} {symbols : SymbolTable} {W s : Shape}
variable {targets : Option (LoopControl → Label)} {path ss : List Shape} {n : Nat}
variable {r r' : Routine} {sub : PartLowering}

/-- Is a construct made of parts that run in order? -/
def NodeKind.isSequence : NodeKind → Bool
  | .scope _ | .parenthesis | .operator _ | .link | .offset | .call _ | .ret => true
  | _ => false

namespace Shape

theorem isSequence_cases (h : s.kind.isSequence = true) :
    s.kind.isLoop = false ∧ (∀ c, s.kind ≠ .control c) ∧ s.scope? = none := by
  unfold scope?
  generalize s.kind = k at h
  cases k <;> simp_all [NodeKind.isSequence, NodeKind.isLoop]

variable (hW : W.Numbered) (hf : W.Formed) (hks : Labelled R.kinds)
include hW hf hks

/-- **The instructions of a construct do what it does**, if those of its parts do. -/
theorem LowersPart.performs (hsub : Performs o R t symbols W sub) :
    Performs o R t symbols W (LowersPart t symbols sub) := by
  refine ⟨fun {pl path s ss r x? r' targets} hin hv hpl hc hfollow ha h n => ?_⟩
  have placed (hk : s.kind.isSequence = true) :
      W.Placed targets (s :: path) s.parts ∧ Aimed targets (s :: path) r := by
    obtain ⟨hl, hcontrol, hscope⟩ := isSequence_cases hk
    exact ⟨fun c hc' => ⟨hin.operand hv hscope hc', isConfined_part hc hl hcontrol hc'⟩,
      ha.push hl⟩
  have valued {m : Exec Unit} {z : ValueId} (e : Performed o R symbols targets (s :: path) n m r r')
      (hz : Gives R symbols s r' z) :
      Performed o R symbols targets path n m r r' ∧ ∀ x ∈ some z, Gives R symbols s r' x :=
    ⟨e.mono (List.subset_cons_self _ _), fun x hx => Option.some.inj hx ▸ hz⟩
  have plain {m : Exec Unit} (e : Performed o R symbols targets path n m r r') :
      Performed o R symbols targets path n m r r' ∧
        ∀ x ∈ (none : Option ValueId), Gives R symbols s r' x := ⟨e, by simp⟩
  rw [run]
  cases h with
  | statements hk h =>
    obtain ⟨hin, ha⟩ := placed (by rcases hk with ⟨_, hk⟩ | hk <;> rw [hk] <;> rfl)
    obtain ⟨e, hx⟩ := StatedParts.performed (n := n) hsub hin ha h
    have hvalue : ∀ x ∈ x?, Gives R symbols s r' x := fun x hm => by
      rcases hx x hm with ⟨c, hc, hx⟩ | ⟨-, hm⟩
      · exact ⟨hx.leader, fun hR => .statements hk hc (hx.denotes hR)⟩
      · cases hm
    rcases hk with ⟨_, hk⟩ | hk
    all_goals
      simp only [hk]
      exact ⟨e.mono (List.subset_cons_self _ _), hvalue⟩
  | number hk h =>
    simp only [hk]
    exact valued (Silent.create h ha.led (constant_refers _)).performed (gives_number hk ha.led h)
  | reference hk h =>
    have e : Silent r r' := ⟨.valueOf h, (valueOf_onward h ha.led).1⟩
    simp only [hk]
    exact valued e.performed (gives_reference hk ha.led h)
  | stackAddress hk h =>
    have e : Silent r { r with identities := r.identities + 1 } := .context ha.led _ _ _
    simp only [hk]
    exact valued (e.trans (.append h e.led (by simp [InstructionKind.parameters]) rfl)).performed
      (gives_append h e.led (by simp [InstructionKind.parameters]) rfl
        fun _ hx => .stackAddress hk hx)
  | @arithmetic op l m x y z r₁ r₂ r' hk ho hl hm h₁ h₂ h₃ =>
    obtain ⟨hin, ha⟩ := placed (by rw [hk]; rfl)
    obtain ⟨e₁, hx, hy⟩ := hsub.operands (n := n) hin hl hm ha h₁ h₂
    have e₂ : Silent r₂ r' :=
      ⟨.operated h₃, (operated_onward h₃ e₁.grown.led hx.leader hy.leader).1⟩
    simp only [hk, hl, hm, ho, ← bind_assoc]
    exact valued (e₁.bind e₂.performed)
      (gives_operation hk hl hm e₁.grown.led hx hy h₃ e₂.before)
  | @binding op l m v x z r₁ r₂ r' hk ho hl hv' hm h₁ h₂ h₃ =>
    obtain ⟨hin, ha⟩ := placed (by rw [hk]; rfl)
    have e₁ : Performed o R symbols targets (s :: path) n
        (runOperand o t symbols (some l) n) r r := by
      rw [runOperand, run]
      simp only [hv']
      exact (Silent.refl ha.led).performed
    obtain ⟨e₂, hx⟩ := hsub.operand (n := n) (hin m (List.mem_of_getLast? hm)) ha h₁
    have e₃ : Silent r₁ r₂ := .copied h₂ e₂.grown.led hx.leader
    have hz := (copied_onward h₂ e₂.grown.led hx.leader).2
    have e₄ : Silent r₂ r' := .bind h₃ e₃.led hz
    have hmem : l.isMemory = false := by simp [isMemory, hv']
    simp only [hk, hl, hm, ho, Option.any_some, hmem]
    exact valued (e₁.bind (e₂.bind (e₃.trans e₄).performed))
      (gives_assignment hk ho hl hv' hm e₂.grown.led hx h₂ h₃ e₃.before)
  | @store op l m x z w f r₁ r₂ r' hk ho hl hv' hm h₁ h₂ h₃ =>
    obtain ⟨hin, ha⟩ := placed (by rw [hk]; rfl)
    obtain ⟨e₁, hx, hz⟩ := hsub.operands (n := n) hin hl hm ha h₁ h₂
    have hmem : l.isMemory = true := by rcases hv' with hv' | hv' <;> simp [isMemory, hv']
    have e₂ : Performed o R symbols targets (s :: path) n
        (Exec.perform (.store (some l) (some m))) r₂ r' :=
      append_performed h₃ e₁.grown.led (pair_leads hx.leader hz.leader)
        (fun hR => .store (hx.denotes hR) (hz.denotes hR)) (by simp)
    have hz := hz.before e₂.grown.before
    simp only [hk, hl, hm, ho, Option.any_some, hmem, ← bind_assoc]
    exact valued (e₁.bind e₂) ⟨hz.leader, fun hR => .store hk ho hl hmem hm (hz.denotes hR)⟩
  | @link l m v x z offset f r₁ r' hk hl h₁ h₂ hm hv' ho =>
    obtain ⟨hin, ha⟩ := placed (by rw [hk]; rfl)
    obtain ⟨e₁, hx⟩ := hsub.operand (n := n) (hin l (List.mem_of_mem_head? hl)) ha h₁
    have hq : ∀ q ∈ (InstructionKind.getObjectPointer x offset).parameters,
        r₁.values.Leader q.value := by simpa [InstructionKind.parameters] using hx.leader
    simp only [hk, hl]
    exact valued (e₁.ahead (.append h₂ e₁.grown.led hq rfl))
      (gives_append h₂ e₁.grown.led hq rfl fun hR hz =>
        .link hk hl hm hv' ho (hx.denotes hR) hz)
  | @offset l m x y z f r₁ r₂ r' hk hl hm h₁ h₂ h₃ =>
    obtain ⟨hin, ha⟩ := placed (by rw [hk]; rfl)
    obtain ⟨e₁, hx, hy⟩ := hsub.operands (n := n) hin hl hm ha h₁ h₂
    have hq := pair_leads (p := ⟨x, .observed⟩) (q := ⟨y, .observed⟩) hx.leader hy.leader
    simp only [hk, hl, hm]
    exact valued (e₁.ahead (.append h₃ e₁.grown.led hq rfl))
      (gives_append h₃ e₁.grown.led hq rfl fun hR hz =>
        .offset hk hl hm (hx.denotes hR) (hy.denotes hR) hz)
  | @call g xs w z symbol f r₁ r₂ r' hk h₁ h₂ hs h₃ =>
    obtain ⟨hin, ha⟩ := placed (by rw [hk]; rfl)
    obtain ⟨e₁, hxs⟩ := AllParts.performed (n := n) hsub hin ha h₁
    have e₂ : Silent r₁ r₂ :=
      .append h₂ e₁.grown.led (by simp [InstructionKind.parameters]) rfl
    have hq : ∀ q ∈ (InstructionKind.call symbol xs).parameters, r₂.values.Leader q.value := by
      intro q hq
      obtain ⟨x, hx, rfl⟩ := List.mem_map.mp hq
      exact e₂.before.leader (leads_of_gives hxs x hx)
    have hxs (hR : r₂.Before R) : List.Forall₂ (R.Denotes symbols) s.parts xs :=
      hxs.imp fun _ _ hx => hx.denotes (e₂.before.trans hR)
    have e₃ : Performed o R symbols targets (s :: path) n (Exec.perform (.call g s.parts)) r₂ r' :=
      append_performed h₃ e₂.led hq (fun hR => .call hs (hxs hR)) (by simp)
    simp only [hk]
    exact valued (e₁.bind (e₃.behind e₂)) (gives_append h₃ e₂.led hq rfl fun hR hz =>
      .call hk hs (hxs hR) hz)
  | chain hk h₁ h₂ h₃ h₄ =>
    obtain rfl := hpl rfl
    simp only [hk]
    refine plain (chain_performed hsub hW hf hks hk (fun b hb => ?_) ha (h₁ []) h₂ h₃ h₄)
    rcases List.mem_cons.mp hb with rfl | hb
    · exact ⟨hin, hc⟩
    · exact hfollow b hb
  | forever hk hp h =>
    obtain rfl := hpl rfl
    simp only [hk]
    exact plain (ForeverOf.performed hsub hks hin hk hp hc ha.led h)
  | pretested hk hp h =>
    obtain rfl := hpl rfl
    simp only [hk]
    exact plain (PretestedOf.performed hsub hW hf hks hin hk hp hc ha.led h)
  | control hk h =>
    simp only [hk]
    exact plain (ControlOf.performed hks hk hc ha h)
  | ret hk hs h =>
    simp only [hk, hs, List.head?_nil, runOperand]
    exact plain (append_returned h ha.led (by simp) fun _ => .ret)
  | @retValue l x y w r₁ r₂ r' hk hl h₁ h₂ h₃ =>
    obtain ⟨hin, ha⟩ := placed (by rw [hk]; rfl)
    obtain ⟨e₁, hx⟩ := hsub.operand (n := n) (hin l (List.mem_of_mem_head? hl)) ha h₁
    have e₂ : Silent r₁ r₂ := .copied h₂ e₁.grown.led hx.leader
    have hy := (copied_onward h₂ e₁.grown.led hx.leader).2
    have e₃ : Performed o R symbols targets (s :: path) n _ r₂ r' :=
      append_returned h₃ e₂.led (fun y' hm => Option.some.inj hm ▸ hy) fun hR =>
        .retValue (hx.denotes (e₂.before.trans hR)) (h₂.copies hR)
    simp only [hk, hl]
    exact plain ((e₁.bind (e₃.behind e₂)).mono (List.subset_cons_self _ _))

/-- **The instructions of all parts of a body do what the parts do.** -/
theorem LowersWithin.performs (fuel : Nat) :
    Performs o R t symbols W (LowersWithin t symbols fuel) := by
  induction fuel with
  | zero => exact ⟨fun _ _ _ _ _ _ h => h.elim⟩
  | succ fuel ih => exact LowersPart.performs hW hf hks ih

end Shape

end Codegen

/-! ## Functions -/

namespace Codegen

open Generating Shape

variable {o : Oracle} {ks : List InstructionKind} {r r' : Routine} {u : Unit}

theorem Closed.labelled (h : Closed ks) : Labelled ks :=
  ⟨h.labels, fun l test hj => List.one_le_count_iff.mp (Nat.le_of_eq (h.jumps l test hj).symm)⟩

theorem Tree.Shows.numbered {t : Tree} {W : Shape} (h : t.Shows W) : W.Numbered := by
  obtain ⟨f, seat, hs⟩ := Standing.of_shows h
  exact fun hin hin' he => hs.unique hin hin' he

namespace Lowered

variable (w : Lowered) {W : Shape} (hs : w.source.tree.Shows W) (hb : w.source.body = W.id)
  (hW : W.Formed) (o : Oracle) (n k : Nat)

theorem start_symbols : w.start.symbols = w.symbols := by
  have hs := w.started
  simp only [Routine.start, Arena.bind_eq_ok, Arena.pure_eq_ok] at hs
  obtain ⟨symbol, -, hs⟩ := hs
  rw [← hs]

include hs hb hW

/-- **The walk comes to the return that the execution comes to**, or it has carried the same out in
at least as many steps as there were rounds left, and goes on. -/
theorem follows : ∃ k, w.routine.Matches w.symbols (walk o w.routine.kinds k).history
      (W.execute o w.source.tree w.symbols n).2 ∧
    ((W.execute o w.source.tree w.symbols n).1 = true ∧
        (walk o w.routine.kinds k).stand = .returned ∨
      (W.execute o w.source.tree w.symbols n).1 = false ∧ n ≤ k ∧
        ∃ j, (walk o w.routine.kinds k).stand = .front j) := by
  have hks := (Closed.of_open w.stream_open).labelled
  obtain ⟨r₁, x?, r₂, h₁, h₂, h₃⟩ := lowerFunction_parts w.lowers
  obtain ⟨xs, q, y, hq, ha⟩ := bindParameters_parts h₁
  have hkept : Kept w.start r₁ := (Kept.prepared hq).trans (.append ha)
  have e₁ : Silent w.start r₁ := ⟨(Mute.prepared hq).trans (.append ha rfl),
    bindParameters_onward h₁ (Routine.led_of_start w.started)⟩
  obtain ⟨htree, -, hkinds, -⟩ := w.start_eq
  have hshows : r₁.tree.Shows W := by rwa [hkept.tree, htree]
  obtain ⟨fuel, h₂⟩ := hshows.lowers hW.tidy (hb ▸ h₂)
  rw [hkept.tree, htree, hkept.symbols, w.start_symbols] at h₂
  have hnone : Aimed none [] r₁ := .none e₁.led
  obtain ⟨e₂, -⟩ := (LowersWithin.performs (o := o) (R := w.routine) hs.numbered hW hks fuel).part
    .root (.inl rfl) (fun _ => rfl) (by exact hW.confined) .nil hnone h₂ n
  have hR : r₂.Before w.routine := by
    rcases finish_parts h₃ with h | ⟨z, hz⟩
    · rw [h]
      exact .refl e₂.grown.led
    · exact append_before hz e₂.grown.led (by simp [InstructionKind.parameters])
  have hanswer := Follows.behind (e₁.passes (e₂.grown.before.trans hR)) (e₂.follows hR) [] [] .nil
  rw [hkinds, List.length_nil] at hanswer
  unfold execute
  cases hrun : Shape.run o w.source.tree w.symbols W [] n [] with
  | ok a h =>
    rw [hrun] at hanswer
    obtain ⟨k, g, hk, hg⟩ := hanswer
    rcases finish_parts h₃ with heq | ⟨z, hz⟩
    · rw [← heq] at h₃ hk
      obtain ⟨value, hlast⟩ := finish_ends h₃
      exact absurd hk (not_reaches_end hlast)
    · have hlast : w.routine.kinds[r₂.kinds.length]? = some (.ret none) := by
        simp [(append_appended hz).kinds]
      have hret := hk.returns (returns_ret hlast)
      refine ⟨_, ?_, .inl ⟨rfl, congrArg Walk.stand hret⟩⟩
      exact (congrArg Walk.history hret) ▸ .cons .ret hg
  | error e h =>
    rw [hrun] at hanswer
    cases e with
    | control c =>
      obtain ⟨f, hf, -⟩ := hanswer
      cases hf
    | ret =>
      obtain ⟨k, g, hk, hg⟩ := hanswer
      exact ⟨k, congrArg Walk.history hk ▸ hg, .inl ⟨rfl, congrArg Walk.stand hk⟩⟩
    | cut =>
      obtain ⟨k, j, g, hn, hk, hg⟩ := hanswer
      exact ⟨k, congrArg Walk.history hk ▸ hg, .inr ⟨rfl, hn, j, congrArg Walk.stand hk⟩⟩

/-- **The stream has the control flow of its source.** Whatever pairs of words are compared, the
walk through the instructions returns exactly if structured execution of the body does. The
comparisons, calls, stores and returns on it up to there carry out what happens in the execution,
one after the other, with the values of the same operands in the same order. If neither returns, all
that happens in one of them happens in the other. Jumps never lead out of the stream. -/
theorem walk_executes :
    (∀ k g, walk o w.routine.kinds k = ⟨.returned, g⟩ →
        ∃ n h, W.execute o w.source.tree w.symbols n = (true, h) ∧
          w.routine.Matches w.symbols g h) ∧
      (∀ n h, W.execute o w.source.tree w.symbols n = (true, h) →
        ∃ k g, walk o w.routine.kinds k = ⟨.returned, g⟩ ∧ w.routine.Matches w.symbols g h) ∧
      (∀ k, ∃ n h, h <:+ (W.execute o w.source.tree w.symbols n).2 ∧
        w.routine.Matches w.symbols (walk o w.routine.kinds k).history h) ∧
      (∀ n, ∃ k, w.routine.Matches w.symbols (walk o w.routine.kinds k).history
        (W.execute o w.source.tree w.symbols n).2) ∧
      ∀ k, (walk o w.routine.kinds k).stand ≠ .lost := by
  -- behind as many rounds as steps, the walk has gone on or has returned
  have behind (k : Nat) (hk : ∀ i, (walk o w.routine.kinds k).stand ≠ .front i) :
      ∃ n h, W.execute o w.source.tree w.symbols n = (true, h) ∧
        w.routine.Matches w.symbols (walk o w.routine.kinds k).history h ∧
        (walk o w.routine.kinds k).stand = .returned := by
    obtain ⟨m, hm, ⟨ht, hret⟩ | ⟨-, hle, j, hj⟩⟩ := w.follows hs hb hW o (k + 1)
    · have heq : walk o w.routine.kinds m = walk o w.routine.kinds k := by
        rcases Nat.le_total k m with hkm | hmk
        · exact walk_eq_of_le hk hkm
        · exact (walk_eq_of_le (by simp [hret]) hmk).symm
      rw [heq] at hm hret
      exact ⟨k + 1, _, Prod.ext ht rfl, hm, hret⟩
    · exact absurd hj (walk_eq_of_le hk (Nat.le_of_succ_le hle) ▸ hk j)
  refine ⟨fun k g hk => ?_, fun n h hn => ?_, fun k => ?_, fun n => ?_, fun k hk => ?_⟩
  · obtain ⟨n, h, hn, hm, -⟩ := behind k (by simp [hk])
    rw [hk] at hm
    exact ⟨n, h, hn, hm⟩
  · obtain ⟨k, hm, ⟨-, hret⟩ | ⟨hf, -⟩⟩ := w.follows hs hb hW o n
    · rw [hn] at hm
      exact ⟨k, _, congrArg₂ Walk.mk hret rfl, hm⟩
    · simp [hn] at hf
  · obtain ⟨m, hm, hreached⟩ := w.follows hs hb hW o k
    have hsuffix : (walk o w.routine.kinds k).history <:+ (walk o w.routine.kinds m).history := by
      rcases Nat.le_total k m with hkm | hmk
      · exact walk_history hkm
      · rcases hreached with ⟨-, hret⟩ | ⟨-, hle, -⟩
        · rw [walk_eq_of_le (by simp [hret]) hmk]
        · exact walk_history hle
    obtain ⟨h, hh, hm⟩ := hm.suffix hsuffix
    exact ⟨k, h, hh, hm⟩
  · exact (w.follows hs hb hW o n).imp fun _ h => h.1
  · obtain ⟨n, h, -, -, hret⟩ := behind k (by simp [hk])
    cases hk.symm.trans hret

end Lowered

open Surface in
/-- A loop that waits for one parameter to be less than the other. -/
def polling : ProgramForm where
  globals := []
  types := []
  functions := [{
    name := "poll"
    key := "poll"
    inside? := none
    parameters := [⟨"p", some "i64"⟩, ⟨"q", some "i64"⟩]
    returnType? := some "i64"
    body? := some [
      .forever [.ifBranch (.operator .less (.reference "p") (.reference "q")) [.control .stop] []],
      .retValue (.reference "p")] }]

/-- The first pair of words is the wrong way round. -/
def secondTime : Oracle := fun n => if n = 0 then (1, 0) else (0, 1)

/-- The walk goes back to the beginning of the loop once. -/
theorem polling_walk : ((polling.lowering? ⟨.x64, false, false⟩).any fun (s, r) =>
    s.tree.isShown 9 (s.tree.shape 9 s.body) && (s.tree.shape 9 s.body).isFormed 9 &&
      (walk secondTime r.kinds 40).stand == .returned &&
      (walk secondTime r.kinds 40).history ==
        [.ret (some 0), .compare 0 1, .compare 0 1]) = true := by cbv

/-- So the execution of the loop returns in its second round, when it has compared two values
twice. -/
theorem walk_executes_polling : ∃ (w : Lowered) (W : Shape),
    w.source.tree.Shows W ∧ w.source.body = W.id ∧ W.Formed ∧
      ∃ n h, W.execute secondTime w.source.tree w.symbols n = (true, h) ∧
        w.routine.Matches w.symbols [.ret (some 0), .compare 0 1, .compare 0 1] h := by
  obtain ⟨⟨s, r⟩, hlow, hw⟩ := (Option.any_eq_true _ _).mp polling_walk
  obtain ⟨w, rfl, rfl⟩ := Surface.ProgramForm.exists_lowered hlow
  simp only [Bool.and_eq_true, beq_iff_eq] at hw
  obtain ⟨⟨⟨hs, hf⟩, hstand⟩, hhistory⟩ := hw
  have hs := Tree.shows_of_isShown hs
  have hf := Shape.formed_of_isFormed hf
  obtain ⟨hreturns, -⟩ := w.walk_executes hs rfl hf secondTime
  exact ⟨w, _, hs, rfl, hf, hreturns 40 _ (congrArg₂ Walk.mk hstand hhistory)⟩

end Codegen
