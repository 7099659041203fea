import Mathlib
import Codegen.Proofs.Compilation
import Codegen.Proofs.Lowering.Shown
import Codegen.Proofs.Round.Loop
import Codegen.Proofs.Tree.Read
import Codegen.Surface.Elaborate

/-!
# Lowering of function bodies

Lifetimes are intervals of the stream, but a loop leads back to its beginning. So whatever was bound
to a variable when a loop was entered has to be alive up to the last instruction that leads back,
and no instruction in between may name another value that was made before.

* `Shape.LowersPart.traversed`: **all constructs complete the rounds that they begin**;
* `Shape.LowersWithin.evaluates`, `traverses`: all parts of a body, by induction on their depth;
* `Lowered.rounds_alive`: **values that a loop needs stay alive through the whole loop**.
-/

namespace Codegen

open Generating Shape

variable {t : Tree} {symbols : SymbolTable} {W s : Shape} {path ss : List Shape}
variable {sub : PartLowering} {r r' : Routine} {x? : Option ValueId}

namespace Shape

theorem LowersPart.traversed (hn : t.Numbers W) (hW : W.Layered) (hsub : Evaluates t W sub)
    (htr : Traverses t W sub) : Traverses t W (LowersPart t symbols sub) := by
  intro path s ss r x? r' hin htail hr ht h
  have hold : (Exits.mk [] none [] none).Old r := ⟨by simp, by simp⟩
  by_cases hstmt : s.kind.isStatement = false
  · have e := LowersPart.evaluated hsub hW (.refl hr) hold hin (.inl rfl) hstmt h
    refine (Traversed.of_run ht e.run e.kept.loops).congr (iff_of_false (not_leaves ?_ ?_ ?_)
      not_false)
    all_goals
      intro k hk
      simp [hk, NodeKind.isStatement] at hstmt
  have leaf (h₁ : ∀ k, s.kind ≠ .scope k) (h₂ : ∀ k, s.kind ≠ .ifBranch k)
      (h₃ : ∀ k, s.kind ≠ .control k) (h : Traversed t W path False [] r r') :
      Traversed t W path (s.Leaves ss) [] r r' :=
    h.congr (iff_of_false (not_leaves h₁ h₂ h₃) not_false)
  cases h with
  | statements hk h =>
    obtain ⟨k, hk⟩ := hk.resolve_right fun hk => by simp [hk, NodeKind.isStatement] at hstmt
    have hscope : s.scope? = none := by simp [scope?, hk]
    have e := StatedParts.traversed htr (fun c hc => hin.operand (.inl rfl) hscope hc)
      (fun _ => hin.dropped 0) hr ht h
    exact (e.up (by simp [hk, NodeKind.isLoop])).congr (leaves_scope hk)
  | chain hk h₁ h₂ h₃ h₄ =>
    exact chain_traversed htr hsub hW hk hin htail hr ht (h₁ []) h₂ h₃ h₄
  | forever hk hp h =>
    exact leaf (by simp [hk]) (by simp [hk]) (by simp [hk])
      (ForeverOf.traversed htr hn hin hk hp hr ht h)
  | pretested hk hp h =>
    exact leaf (by simp [hk]) (by simp [hk]) (by simp [hk])
      (PretestedOf.traversed htr hn hsub hW hin hk hp hr ht h)
  | control hk h =>
    exact (ControlOf.traversed hr ht h).congr (iff_of_true (.control hk) trivial)
  | ret hk _ h =>
    refine leaf (by simp [hk]) (by simp [hk]) (by simp [hk]) (.of_run ht ?_ (Kept.append h).loops)
    exact ((Run.refl hr).plain hold (append_appended h) rfl
      (by simp [InstructionKind.parameters])).1
  | retValue hk hl h₁ h₂ h₃ =>
    have hl := List.mem_of_mem_head? hl
    have hin' := hin.operand (.inl rfl) (by simp [scope?, hk]) hl
    obtain ⟨g₁, k₁, hx⟩ := hsub.value hin' (.inl rfl) (hW.operand hin' (.inr hk)) (.refl hr) hold h₁
    obtain ⟨g₂, hy⟩ := g₁.copied hold h₂ hx
    obtain ⟨g₃, -⟩ := g₂.plain hold (append_appended h₃) rfl
      (by simpa [InstructionKind.parameters] using hy)
    exact leaf (by simp [hk]) (by simp [hk]) (by simp [hk])
      (.of_run ht g₃ ((k₁.trans (Kept.copied h₂)).trans (.append h₃)).loops)
  | _ => simp_all [NodeKind.isStatement]

variable (hn : t.Numbers W) (hW : W.Layered) (fuel : Nat)
include hW

theorem LowersWithin.evaluates : Evaluates t W (LowersWithin t symbols fuel) := by
  induction fuel with
  | zero => exact fun _ _ _ _ _ h => h.elim
  | succ fuel ih =>
    exact fun hs hv hk h₀ ho h => LowersPart.evaluated ih hW h₀ ho hs hv hk h

include hn

theorem LowersWithin.traverses : Traverses t W (LowersWithin t symbols fuel) := by
  induction fuel with
  | zero => exact fun _ _ _ _ h => h.elim
  | succ fuel ih => exact LowersPart.traversed hn hW (LowersWithin.evaluates hW fuel) ih

end Shape

theorem Tree.Shows.numbers (h : t.Shows W) : t.Numbers W := by
  obtain ⟨f, seat, hs⟩ := Standing.of_shows h
  exact ⟨hs.kind, fun hin hin' he => (hs.unique hin hin' he).2.2⟩

/-! ## Functions -/

theorem Lowered.start_eq (w : Lowered) : w.start.tree = w.source.tree ∧ w.start.loops = [] ∧
    w.start.kinds = [] ∧ w.start.values = .empty := by
  have hs := w.started
  simp only [Routine.start, Arena.bind_eq_ok, Arena.pure_eq_ok] at hs
  obtain ⟨symbol, -, hs⟩ := hs
  rw [← hs]
  exact ⟨rfl, rfl, rfl, rfl⟩

/-- **A function completes the rounds that it begins.** -/
theorem Lowered.run (w : Lowered) (hs : w.source.tree.Shows W) (hb : w.source.body = W.id)
    (hW : W.Layered) : w.start.kinds = [] ∧ Run w.source.tree .closed w.start w.routine := by
  obtain ⟨htree, hloops, hkinds, hvalues⟩ := w.start_eq
  have hr : Covered w.start := by
    refine ⟨?_, by simp [hkinds]⟩
    rw [hvalues]
    exact Arena.isSet_empty
  have hnew {x : ValueId} : Known [] w.start x := .inl (by simp [hvalues, Arena.empty, Arena.size])
  have hold := Exits.closed_old w.start
  obtain ⟨r₁, x?, r₂, h₁, h₂, h₃⟩ := lowerFunction_parts w.lowers
  obtain ⟨xs, q, y, hq, ha⟩ := bindParameters_parts h₁
  have g₁ := ((Run.refl (t := w.source.tree) hr).prepared hold hq (by simp)).plain hold
    (append_appended ha) rfl (fun _ _ => hnew)
  have hkept : Kept w.start r₁ := (Kept.prepared hq).trans (.append ha)
  have htab : Tabled W r₁ := by
    constructor
    all_goals simp [hkept.loops, hloops]
  have hshows : r₁.tree.Shows W := by rwa [hkept.tree, htree]
  obtain ⟨fuel, h₂⟩ := hshows.lowers hW.tidy (hb ▸ h₂)
  rw [hkept.tree, htree] at h₂
  have e := LowersWithin.traverses hs.numbers hW fuel .root .root g₁.1.covered htab h₂
  have g₂ : Run w.source.tree .closed r₁ r₂ :=
    e.run _ (Exits.closed_old _) (List.nil_subset _) fun _ record hrec => by
      obtain ⟨p, hp, -⟩ := hrec
      simp at hp
  refine ⟨hkinds, ?_⟩
  have g := g₁.1.trans hold g₂
  rcases finish_parts h₃ with rfl | ⟨z, h₃⟩
  · exact g
  · exact (g.plain hold (append_appended h₃) rfl (by simp [InstructionKind.parameters])).1

/-! ## Values that loops need -/

/-- **Values that a loop needs stay alive through the whole loop.** Each round that begins is ended
by an instruction, and no later one ends it. From the beginning of the round to this end and, if the
loop tests a condition, on to the conditional jump that leads back, the values that variables had at
the beginning are alive, and instructions name only those values and later ones. -/
theorem Lowered.rounds_alive (w : Lowered) {W : Shape} (hs : w.source.tree.Shows W)
    (hb : w.source.body = W.id) (hW : W.Layered) {i : Nat} {n : NodeId} {actives : List Binding}
    (hi : w.routine.kinds[i]? = some (.symmetryStart n actives)) :
    ∃ close last l, Round w.routine actives i close last l ∧
      ((∃ c, w.source.tree.kind n = .loop c false) → ∃ (j : Nat) (test : JumpTest),
        close < j ∧ j ≤ last ∧ w.routine.kinds[j]? = some (.jump l (some test))) := by
  obtain ⟨hstart, hrun⟩ := w.run hs hb hW
  obtain ⟨close, last, l, -, hround, hback⟩ :=
    hrun.rounds i n actives (by simp [hstart]) (by simp [Exits.closed]) hi
  refine ⟨close, last, l, hround, fun hc => ?_⟩
  obtain ⟨j, test, hj, hk⟩ := hback hc
  exact ⟨j, test, hj, hround.jumps j test hk (Nat.lt_trans hround.order.1 hj), hk⟩

open Surface in
/-- A loop with a condition, in which a value from before the loop is used. -/
def counting : ProgramForm where
  globals := []
  types := []
  functions := [{
    name := "count"
    key := "count"
    inside? := none
    parameters := [⟨"p", some "i64"⟩, ⟨"q", some "i64"⟩]
    returnType? := some "i64"
    body? := some [
      .loop [] (.operator .less (.reference "p") (.number (.integer 9) .i64)) []
        [.operator .assign (.reference "p") (.operator .add (.reference "p") (.reference "q"))] [],
      .retValue (.reference "p")] }]

/-- The loop begins its round with instruction 10, when the parameters have the values 0 and 1. -/
theorem counting_lowering : ((counting.lowering? ⟨.x64, false, false⟩).any fun (s, r) =>
    s.tree.isShown 9 (s.tree.shape 9 s.body) && (s.tree.shape 9 s.body).isLayered 9 &&
      (r.kinds[10]? == some (.symmetryStart 8 [(0, 0), (1, 1)])) &&
      s.tree.kind 8 == .loop 2 false) = true := by cbv

/-- The loop's test is lowered again behind the round, so the values are alive up to its jump. -/
theorem rounds_alive_counting : ∃ (w : Lowered) (W : Shape),
    w.source.tree.Shows W ∧ w.source.body = W.id ∧ W.Layered ∧
      w.routine.kinds[10]? = some (.symmetryStart 8 [(0, 0), (1, 1)]) ∧
      ∃ (close last j : Nat) (l : Label) (test : JumpTest),
        Round w.routine [(0, 0), (1, 1)] 10 close last l ∧ close < j ∧ j ≤ last ∧
          w.routine.kinds[j]? = some (.jump l (some test)) := by
  obtain ⟨⟨s, r⟩, hlow, hw⟩ := (Option.any_eq_true _ _).mp counting_lowering
  obtain ⟨w, rfl, rfl⟩ := Surface.ProgramForm.exists_lowered hlow
  simp only [Bool.and_eq_true, beq_iff_eq] at hw
  obtain ⟨⟨⟨hs, hl⟩, hi⟩, hk⟩ := hw
  have hs := Tree.shows_of_isShown hs
  have hl := Shape.layered_of_isLayered hl
  obtain ⟨close, last, l, hround, hback⟩ := w.rounds_alive hs rfl hl hi
  obtain ⟨j, test, hj, hlast, hjump⟩ := hback ⟨2, hk⟩
  exact ⟨w, _, hs, rfl, hl, hi, close, last, j, l, test, hround, hj, hlast, hjump⟩

end Codegen
