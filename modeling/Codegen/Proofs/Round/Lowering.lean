import Codegen.Proofs.Round.Leaving
import Codegen.Proofs.Round.Run

/-!
# Lowering of statements and rounds

What happens from the beginning of a round to its last jump makes a round. Each statement lowers its
parts one after another, with some instructions of its own between them. A loop completes the round
that it begins.

* `Rounded.of_runs`: **what happens from the beginning of a round to its last jump makes a round**;
* `Run.close`: a part that began a round and completed it needs no exits;
* `Traverses`: a lowering of statements that looks up the loops which they leave;
* `Shape.EachPart.traversed`, `TestOf.traversed`, `BranchesOf.traversed`, ...: parts of statements;
* `Shape.ForeverOf.traversed`, `PretestedOf.traversed`: **loops complete their rounds**;
* `Shape.LowersPart.traversed`: **all statements**.
-/

namespace Codegen

open Generating

variable {t : Tree} {c : Exits} {q r r₀ r₁ r₂ r₃ r' : Routine} {n : NodeId} {x y : ValueId}
variable {actives : List Binding} {l low : Label} {ls : List Label} {i : Nat}

/-- **What makes a round.** It begins behind its label; what is done in it ends only this round and
does not jump to its label; then it ends, and no later instruction ends it again; and the last
instructions that jump to its label are followed by uses of the values at its beginning. -/
theorem Rounded.of_runs {pairs : List MergePair} (hr : Covered r) (hbound : r.bindings = actives)
    (hlabel : 0 < r.kinds.length ∧ r.kinds[r.kinds.length - 1]? = some (.label l))
    (hlow : low ≤ l) (hlt : l < r.labels)
    (hstart : Appended (.symmetryStart n actives) r x r')
    (h₀ : r₀.instructions = r'.instructions ∧ r₀.values = r'.values ∧
      r₀.bindings = r'.bindings ∧ r₀.labels = r'.labels)
    (h₁ : Run t ⟨actives, some r.kinds.length, [], none⟩ r₀ r₁)
    (hpairs : pairs = pairsOf r₁.bindings actives)
    (hend : Appended (.symmetryEnd r.kinds.length pairs) r₁ y q)
    (h₂ : Run t ⟨actives, none, [l], none⟩ q r₂) (h₃ : Run t ⟨actives, none, [], none⟩ r₂ r₃)
    (halive : ∀ v x, (v, x) ∈ actives →
      ∃ k : Nat, r₂.kinds.length ≤ k + 1 ∧ r₃.values.Covers x k)
    (hback : (∃ c, t.kind n = .loop c false) → ∃ (j : Nat) (test : JumpTest), q.kinds.length ≤ j ∧
      r₂.kinds[j]? = some (.jump l (some test))) :
    Rounded t low r₃ r.kinds.length n actives := by
  obtain ⟨hi₀, hv₀, hb₀, hl₀⟩ := h₀
  obtain ⟨values, rfl, hg⟩ := hstart.routine
  obtain ⟨hg, hsize, hcover⟩ := hg hr.isSet
  have hk₀ : r₀.kinds = r.kinds ++ [.symmetryStart n actives] := by
    rw [Routine.kinds, hi₀]
    simp [Routine.kinds]
  have hlen₀ : r₀.kinds.length = r.kinds.length + 1 := by simp [hk₀]
  have hkq := hend.kinds
  have hlenq : q.kinds.length = r₁.kinds.length + 1 := by simp [hkq]
  have hlen₁ := h₁.kinds.length_le
  have hlen₂ := h₂.kinds.length_le
  -- the whole round, up to the last instruction that may lead back
  have hold : (Exits.mk actives (some r.kinds.length) [l] none).Old r₀ :=
    ⟨by simp [hlen₀], by simpa [hl₀] using hlt⟩
  have h₁' : Run t ⟨actives, some r.kinds.length, [l], none⟩ r₀ r₁ :=
    h₁.weaken (fun _ h => h) (fun _ => .inr) (by simp) (by simp)
  obtain ⟨hq, -⟩ := h₁'.append hold hend
    (fun p hp => h₁'.known_pairs (fun _ _ => .of_active) (by rwa [hpairs] at hp))
    (by simp) (by simp) (by simp)
  have h : Run t ⟨actives, some r.kinds.length, [l], none⟩ r₀ r₂ :=
    hq.trans hold (h₂.weaken (fun _ h => h) (by simp) (fun _ => .inr) (by simp))
  have hstream : r₀.instructions.toList <+: r₃.instructions.toList := h.stream.trans h₃.stream
  have hlt₂ : l < r₂.labels := Nat.lt_of_lt_of_le hlt (hl₀ ▸ h.labels)
  refine ⟨r₁.kinds.length, r₂.kinds.length - 1, l,
    ⟨hlow, Nat.lt_of_lt_of_le hlt₂ h₃.labels⟩, ?_, fun hc => ?_⟩
  · have hlen₃ := h₃.kinds.length_le
    constructor
    · refine ⟨hlabel.1, h₃.kept (h.kept ?_)⟩
      rw [hk₀, List.getElem?_append_left (by omega), hlabel.2]
    · omega
    · exact ⟨pairs, h₃.kept (h₂.kept (by simp [hkq]))⟩
    · intro j pairs' hj
      rcases h₃.split hj with hj' | hge
      · rcases h₂.split hj' with hj' | hge
        · have := (List.getElem?_eq_some_iff.mp hj').1
          omega
        · rcases h₂.ends j _ pairs' hge hj' with hs | hs
          · omega
          · simp at hs
      · rcases h₃.ends j _ pairs' hge hj with hs | hs
        · omega
        · simp at hs
    · intro j test hj _
      rcases h₃.split hj with hj' | hge
      · have := (List.getElem?_eq_some_iff.mp hj').1
        omega
      · rcases h₃.jumps j l test hge hj with hl | hl
        · exact absurd hlt₂ (Nat.not_lt.mpr hl)
        · simp at hl
    · intro v z hz k hik hk
      obtain ⟨k', hk', hcov'⟩ := halive v z hz
      have hcov : r₃.values.Covers z (r.kinds.length : Nat) := by
        refine h₃.values.covers _ _ (h.values.covers _ _ ?_)
        rw [hv₀]
        have := hcover ⟨z, .observed⟩ (List.mem_map.mpr ⟨(v, z), hz, rfl⟩)
        simpa [Routine.kinds] using this
      exact hcov.between hcov' (by omega) (by omega)
    · intro k kind hik hk hkind p hp
      have hkind' : r₂.kinds[k]? = some kind := (h₃.split hkind).resolve_right (by omega)
      rcases h.named k kind (by omega) hkind' p hp with hx | hx | hx
      · have hstart : r₃.instructions[r.kinds.length]? = some
            ⟨.symmetryStart n actives, x, (InstructionKind.symmetryStart n actives).parameters,
              []⟩ := by
          obtain ⟨rest, hrest⟩ := hstream
          rw [← Array.getElem?_toList, ← hrest, hi₀]
          simp [Routine.kinds]
        refine .inr ⟨_, hstart, Nat.lt_of_lt_of_le ?_ hx⟩
        rw [hv₀, hsize, ‹Appended (.symmetryStart n actives) r x _›.result]
        exact Nat.lt_succ_self _
      · rw [hb₀] at hx
        exact .inl (hbound ▸ hx)
      · exact .inl hx
  · obtain ⟨j, test, hj, hk⟩ := hback hc
    exact ⟨j, test, by omega, h₃.kept hk⟩

/-- A part that began a round and completed it needs no exits. -/
theorem Run.close (h : Run t ⟨[], some i, ls, some i⟩ q r') (hi : q.instructions = r.instructions)
    (hv : q.values = r.values) (hb : q.bindings = r.bindings) (hl : r.labels ≤ q.labels)
    (hls : ∀ l ∈ ls, r.labels ≤ l) (hlen : r.kinds.length ≤ i)
    (hround : ∀ n actives, r'.kinds[i]? = some (.symmetryStart n actives) →
      Rounded t r.labels r' i n actives) : Run t .closed r r' := by
  have h' := h.rebase hi hv hb hl
  constructor
  · exact h'.covered
  · exact h'.stream
  · exact h'.labels
  · exact h'.values
  · exact h'.bound
  · exact h'.named
  · intro j s pairs hj hk
    rcases h'.ends j s pairs hj hk with hs | hs
    · exact .inl hs
    · cases hs
      exact .inl hlen
  · intro j l test hj hk
    exact (h'.jumps j l test hj hk).elim .inl fun hl => .inl (hls l hl)
  · intro j n actives hj _ hk
    by_cases hji : i = j
    · subst hji
      exact hround n actives hk
    · exact h'.rounds j n actives hj (by simpa using hji) hk

end Codegen

/-! ## Statements -/

namespace Codegen

open Generating Shape

/-- The lowering of statements does what it should. -/
def Traverses (t : Tree) (W : Shape) (sub : PartLowering) : Prop :=
  ∀ {path s ss r x? r'}, W.In .plain path s → W.Tail path (s :: ss) → Covered r → Tabled W r →
    sub path s ss r x? r' → Traversed t W path (s.Leaves ss) [] r r'

variable {t : Tree} {symbols : SymbolTable} {W s d q : Shape} {path cs rest ss : List Shape}
variable {sub : PartLowering} {r r' r₁ : Routine} {x? y? : Option ValueId} {ls : List Label}
variable {P : Prop}

/-! ## Single steps -/

theorem Traversed.extend (h : Traversed t W path P ls r r₁) (hk : r₁.kinds <+: r'.kinds)
    (hl : r'.loops = r₁.loops) (hrun : ∀ c : Exits, c.Old r → Run t c r r₁ → Run t c r r') :
    Traversed t W path P ls r r' :=
  ⟨h.tabled.extend hk.length_le hl, fun p hp => by rw [hl, h.same p hp], h.targets,
    fun c ho hc hp => hrun c ho (h.run c ho hc hp)⟩

section

variable (h : Traversed t W path P ls r r₁)
include h

theorem Traversed.jump {l : Label} (h' : Takes (appendJump l none) r₁ () r') :
    Traversed t W path P ls r r' := by
  obtain ⟨x, ha⟩ := appendJump_appended h'
  exact h.extend ha.le ha.loops fun c ho h => h.jump ho h' (by simp)

theorem Traversed.label {l : Label} (h' : Takes (appendLabel l) r₁ () r') :
    Traversed t W path P ls r r' := by
  obtain ⟨x, ha⟩ := appendLabel_appended h'
  exact h.extend ha.le ha.loops fun c ho h => h.label ho h'

theorem Traversed.marker {k : InstructionKind} {i : Nat} (h' : Takes (appendMarker k) r₁ i r')
    (hk : k.turns = false) (hp : k.parameters = []) : Traversed t W path P ls r r' := by
  obtain ⟨-, x, ha⟩ := appendMarker_appended h'
  exact h.extend ha.le ha.loops fun c ho h => h.marker ho h' hk (by simp [hp])

theorem Traversed.prepared {actives : List Binding} (ht : Tabled W r)
    (hls : ∀ l ∈ ls, l < r.labels) (h' : Prepared actives r₁ r')
    (ha : ∀ v x, (v, x) ∈ actives → (v, x) ∈ r.bindings) : Traversed t W path P ls r r' := by
  have hk : Run t ⟨actives, none, [], none⟩ r₁ r' :=
    .prepared (.refl (h.covered ht hls)) ⟨by simp, by simp⟩ h' fun _ _ => .of_active
  exact h.extend hk.kinds (Kept.prepared h').loops fun c ho h =>
    h.prepared ho h' fun v x hx => .of_bound (ha v x hx)

end

theorem Traversed.bracketed {step : Routine → Routine → Prop} (h : Bracketed step r r')
    (hr : Covered r) (ht : Tabled W r)
    (hstep : ∀ {q q'}, Covered q → Tabled W q → step q q' → Traversed t W path P [] q q') :
    Traversed t W path P [] r r' := by
  obtain ⟨q, q', h, h₀, hl₀, hl₁, hk, hrun⟩ := Run.bracketed (t := t) h hr
  have h₀' : Traversed t W path False [] r q := .of_run ht h₀ hl₀
  have h₁ := h₀'.trans (hstep h₀.covered h₀'.tabled h)
  have h₁ : Traversed t W path P [] r q' := h₁.congr (by simp)
  exact h₁.extend hk hl₁ hrun

namespace Shape

theorem In.body {b : Shape} {bs : List Shape} (hs : W.In .plain path s) (hb : s.bodyOn = b :: bs) :
    W.In .plain (s :: path) b ∧ W.Tail (s :: path) (b :: bs) := by
  obtain ⟨before, hp⟩ := s.parts_bodyOn
  exact ⟨.part hs (body_place (hb ▸ List.mem_cons_self)), .part hs (hb ▸ hp)⟩

variable (htr : Traverses t W sub)
include htr

/-! ## Parts in order -/

theorem EachPart.traversed (hin : ∀ c ∈ cs, W.In .plain path c)
    (htail : cs ≠ [] → W.Tail path (cs ++ rest)) (hr : Covered r) (ht : Tabled W r)
    (h : EachPart sub path rest cs r r') : Traversed t W path (AnyLeaves cs rest) [] r r' := by
  induction h with
  | nil =>
    exact (Traversed.of_run ht (.refl hr) rfl).congr (iff_of_false (anyLeaves_nil _) (fun h => h))
  | @cons c cs x? r r₁ r' h _ ih =>
    have htail := htail (List.cons_ne_nil _ _)
    have h₁ := htr (hin c List.mem_cons_self) htail hr ht h
    have h₂ := ih (fun c hc => hin c (List.mem_cons_of_mem _ hc))
      (fun hc => htail.tail.resolve_left (by simp [hc])) (h₁.covered ht (by simp)) h₁.tabled
    exact (h₁.trans h₂).congr anyLeaves_cons

theorem StatedParts.traversed (hin : ∀ c ∈ cs, W.In .plain path c)
    (htail : cs ≠ [] → W.Tail path cs) (hr : Covered r) (ht : Tabled W r)
    (h : StatedParts sub path x? cs r y? r') : Traversed t W path (StatedLeaves cs) [] r r' := by
  induction h with
  | nil =>
    exact (Traversed.of_run ht (.refl hr) rfl).congr (iff_of_false statedLeaves_nil (fun h => h))
  | @skip c cs x? y? r r' hk _ ih =>
    have htail := htail (List.cons_ne_nil _ _)
    have h₁ := ih (fun c hc => hin c (List.mem_cons_of_mem _ hc))
      (fun hc => htail.tail.resolve_left hc) hr ht
    exact h₁.congr (by simp [statedLeaves_cons, hk])
  | @cons c cs x? y? z? r r₁ r' hk h _ ih =>
    have htail := htail (List.cons_ne_nil _ _)
    have h₁ := htr (hin c List.mem_cons_self) htail hr ht h
    have h₂ := ih (fun c hc => hin c (List.mem_cons_of_mem _ hc))
      (fun hc => htail.tail.resolve_left hc) (h₁.covered ht (by simp)) h₁.tabled
    exact (h₁.trans h₂).congr (by simp [statedLeaves_cons, hk])

theorem FirstPart.traversed (hin : ∀ c, cs.head? = some c → W.In .plain path c)
    (htail : W.Tail path cs) (hr : Covered r) (ht : Tabled W r) (h : FirstPart sub path cs r r') :
    Traversed t W path (FirstLeaves cs) [] r r' := by
  cases h with
  | nil => exact (Traversed.of_run ht (.refl hr) rfl).congr (by simp [FirstLeaves])
  | cons h => exact (htr (hin _ rfl) htail hr ht h).congr firstLeaves_cons

/-! ## Tests and bodies -/

theorem BranchBody.traversed (hin : W.In .plain path s) (hs : s.kind.isLoop = false)
    (hr : Covered r) (ht : Tabled W r) (h : BranchBody sub path s r r') :
    Traversed t W path s.BodyLeaves [] r r' := by
  obtain ⟨b, bs, r₁, hb, h₁, h₂⟩ := h
  obtain ⟨hin', htail⟩ := hin.body hb
  have e₁ : Traversed t W (s :: path) (b.Leaves bs) [] r r₁ :=
    .bracketed h₁ hr ht fun hq htq ⟨x?, h⟩ => htr hin' htail hq htq h
  have e₂ := (e₁.prepared ht (by simp) h₂ fun v x hb => hb).up hs
  exact e₂.congr (by simp [BodyLeaves, hb, firstLeaves_cons])

variable (hsub : Evaluates t W sub) (hW : W.Layered)
include hsub hW

/-- The test of a branch or a loop, with the statements before it. -/
theorem TestOf.traversed {labels : Label → Label × Label × Label}
    (hs : ∀ l, (labels l).1 = l ∨ (labels l).1 ∈ ls)
    (hf : ∀ l, (labels l).2.1 = l ∨ (labels l).2.1 ∈ ls) (hls : ∀ l ∈ ls, l < r.labels)
    (hin : W.In .plain path s) (hr : Covered r) (ht : Tabled W r)
    (h : TestOf t symbols sub path s labels r r') :
    Traversed t W (s :: path) s.TestLeaves ls r r' ∧
      ((∀ l, l ∉ ls → (labels l).1 ≠ (labels l).2.2) → ∃ (j : Nat) (test : JumpTest) (l : Label),
        r.kinds.length ≤ j ∧ l ∉ ls ∧ r'.kinds[j]? = some (.jump (labels l).1 (some test))) := by
  obtain ⟨d, cs, q, r₁, hd, hp, h₁, h₂⟩ := h
  have hind : W.In .scope (s :: path) d := .part hin (scope_place hd)
  have hplaces := places_scope hp
  have place {pl : Place} {x : Shape} (hx : (pl, x) ∈ d.places .scope) :
      W.In pl (d :: s :: path) x := .part hind hx
  obtain ⟨k, hk⟩ := hW.scope hind
  have e₁ := EachPart.traversed htr (fun c hc => place (by simp [hplaces, hc]))
    (fun _ => hp ▸ hind.dropped 0) hr ht h₁
  have hr₁ := e₁.covered ht (by simp)
  have hle := e₁.labels_le ht (by simp)
  have old {l : Label} (hl : l = r₁.labels ∨ l ∈ ls) : l < r₁.labels + 1 := by
    rcases hl with rfl | hl
    · exact Nat.lt_succ_self _
    · exact Nat.lt_succ_of_lt (Nat.lt_of_lt_of_le (hls l hl) hle)
  obtain ⟨h₃, hl₃, hj⟩ := ConditionOf.run hsub hW (place (by simp [hplaces])) (r :=
    { r₁ with labels := r₁.labels + 1 }) ⟨hr₁.isSet, hr₁.named⟩ (old (hs r₁.labels))
    (old (hf r₁.labels)) h₂
  have e₂ : Traversed t W (d :: s :: path) False ls r₁ r' := by
    have h₄ : Traversed t W (d :: s :: path) False [(labels r₁.labels).1, (labels r₁.labels).2.1]
        { r₁ with labels := r₁.labels + 1 } r' :=
      .of_run ⟨e₁.tabled.symmetry, e₁.tabled.before⟩ h₃ hl₃
    have h₅ : Traversed t W (d :: s :: path) False ([r₁.labels] ++ ls)
        { r₁ with labels := r₁.labels + 1 } r' := by
      refine h₄.mono fun l hl => ?_
      have hs := hs r₁.labels
      have hf := hf r₁.labels
      simp only [List.mem_cons, List.not_mem_nil, or_false] at hl
      simp only [List.singleton_append, List.mem_cons]
      rcases hl with rfl | rfl
      · exact hs
      · exact hf
    exact h₅.fresh rfl rfl rfl rfl (Nat.le_succ _) (by simp)
  refine ⟨(((e₁.mono (List.nil_subset _)).trans e₂).up (by simp [hk, NodeKind.isLoop])).congr ?_,
    fun hn => ?_⟩
  · simp only [or_false]
    constructor
    · rintro ⟨d', q', cs', hd', hp', h⟩
      cases hd.symm.trans hd'
      obtain ⟨rfl, hq⟩ := List.append_inj' (hp.symm.trans hp') rfl
      cases hq
      exact h
    · exact fun h => ⟨d, q, cs, hd, hp, h⟩
  · have hfresh : r₁.labels ∉ ls := fun hm =>
      absurd (hls _ hm) (Nat.not_lt.mpr hle)
    obtain ⟨j, test, hj, hk⟩ := hj (hn _ hfresh)
    have hle := (e₁.kinds ht (by simp)).length_le
    exact ⟨j, test, r₁.labels, Nat.le_trans hle hj, hfresh, hk⟩

/-- A branch, whose test leads to the next one. -/
theorem BranchOf.traversed {failure : Label} (hin : W.In .plain path s)
    (hs : s.kind.isLoop = false) (hf : failure < r.labels) (hr : Covered r) (ht : Tabled W r)
    (h : BranchOf t symbols sub path s failure r r') :
    Traversed t W path s.BranchLeaves [failure] r r' := by
  obtain ⟨r₁, ⟨hk, h₁⟩ | ⟨hk, rfl⟩, h₂⟩ := h
  · have hf' : ∀ l ∈ [failure], l < r.labels := by simpa using hf
    obtain ⟨e₁, -⟩ := TestOf.traversed htr hsub hW (fun _ => .inl rfl)
      (fun _ => .inr (by simp)) hf' hin hr ht h₁
    have e₂ := BranchBody.traversed htr hin hs (e₁.covered ht hf') e₁.tabled h₂
    exact ((e₁.up hs).trans (e₂.mono (by simp))).congr (by simp [BranchLeaves, hk])
  · exact ((BranchBody.traversed htr hin hs hr ht h₂).mono (by simp)).congr
      (by simp [BranchLeaves, hk])

/-- The branches of a chain, whose tests lead on. -/
theorem BranchesOf.traversed {stop : Label} {bs : List Shape}
    (hin : ∀ b ∈ bs, W.In .plain path b ∧ b.kind.isLoop = false) (hl : stop < r.labels)
    (hr : Covered r) (ht : Tabled W r) (h : BranchesOf t symbols sub path stop bs r r') :
    Traversed t W path (∃ b ∈ bs, b.BranchLeaves) [stop] r r' := by
  induction h with
  | last h =>
    obtain ⟨hin, hs⟩ := hin _ List.mem_cons_self
    exact (BranchOf.traversed htr hsub hW hin hs hl hr ht h).congr (by simp)
  | @cons s b bs r r₁ r₂ r₃ r' h hj hx _ ih =>
    have hq : Covered { r with labels := r.labels + 1 } := ⟨hr.isSet, hr.named⟩
    have htq : Tabled W { r with labels := r.labels + 1 } := ⟨ht.symmetry, ht.before⟩
    have hls : ∀ l ∈ [r.labels] ++ [stop], l < r.labels + 1 := by
      simpa using Nat.lt_succ_of_lt hl
    obtain ⟨hin₁, hs⟩ := hin _ List.mem_cons_self
    have e₁ : Traversed t W path s.BranchLeaves ([r.labels] ++ [stop])
        { r with labels := r.labels + 1 } r₁ :=
      (BranchOf.traversed htr hsub hW hin₁ hs (Nat.lt_succ_self _) hq htq h).mono (by simp)
    have e₂ := (e₁.jump hj).label hx
    have hl₃ : stop < r₃.labels :=
      Nat.lt_of_lt_of_le (Nat.lt_succ_of_lt hl) (e₂.labels_le htq hls)
    have e₃ := ih (fun b hb => hin b (List.mem_cons_of_mem _ hb)) hl₃ (e₂.covered htq hls) e₂.tabled
    have e₄ := e₂.trans (e₃.mono (List.subset_append_right _ _))
    have e₅ : Traversed t W path _ [stop] r r' :=
      e₄.fresh rfl rfl rfl rfl (Nat.le_succ _) (by simp)
    exact e₅.congr (by simp only [List.exists_mem_cons_iff])

/-- A chain of branches. -/
theorem chain_traversed {c : ContextId} {i : Nat} {r₂ r₃ : Routine} {bs : List NodeId}
    (hk : s.kind = .ifBranch c) (hin : W.In .plain path s) (htail : W.Tail path (s :: ss))
    (hr : Covered r) (ht : Tabled W r) (h₁ : Prepared [] r r₁)
    (h₂ : Takes (appendMarker (.branch bs)) r₁ i r₂)
    (h₃ : BranchesOf t symbols sub path r₂.labels (s :: followers s.kind ss)
      { r₂ with labels := r₂.labels + 1 } r₃)
    (h₄ : Takes (appendLabel r₂.labels) r₃ () r') :
    Traversed t W path (s.Leaves ss) [] r r' := by
  have e₀ : Traversed t W path False [] r r := .of_run ht (.refl hr) rfl
  have e₂ := (e₀.prepared ht (by simp) h₁ (by simp)).marker h₂ rfl rfl
  have hr₂ := e₂.covered ht (by simp)
  have hin' : ∀ b ∈ s :: followers s.kind ss, W.In .plain path b ∧ b.kind.isLoop = false := by
    intro b hb
    rcases List.mem_cons.mp hb with rfl | hb
    · exact ⟨hin, by simp [hk, NodeKind.isLoop]⟩
    · refine ⟨htail.follower hW.tidy hb, ?_⟩
      have ha := followers_alternative hb
      generalize b.kind = k at ha
      cases k <;> simp_all [NodeKind.isAlternative, NodeKind.isLoop]
  have hq : Covered { r₂ with labels := r₂.labels + 1 } := ⟨hr₂.isSet, hr₂.named⟩
  have htq : Tabled W { r₂ with labels := r₂.labels + 1 } :=
    ⟨e₂.tabled.symmetry, e₂.tabled.before⟩
  have e₃ : Traversed t W path _ ([r₂.labels] ++ []) { r₂ with labels := r₂.labels + 1 } r' :=
    (BranchesOf.traversed htr hsub hW hin' (Nat.lt_succ_self _) hq htq h₃).label h₄
  have e₄ : Traversed t W path _ [] r₂ r' := e₃.fresh rfl rfl rfl rfl (Nat.le_succ _) (by simp)
  exact (e₂.trans e₄).congr (by simp [leaves_chain hk])

omit htr hsub hW in
theorem ControlOf.traversed {control : LoopControl} (hr : Covered r) (ht : Tabled W r)
    (h : ControlOf path control r r') : Traversed t W path True [] r r' := by
  obtain ⟨loop, record, save, r₁, i, r₂, r₃, j, hloop, hrec, h₁, h₂, h₃, h₄⟩ := h
  have htarget : Targets path r record := ⟨loop, hloop, hrec⟩
  obtain ⟨-, x, ha⟩ := appendMarker_appended h₁
  obtain ⟨-, y, hb⟩ := appendMarker_appended h₂
  have hloops : r₂.loops = r.loops := hb.loops.trans ha.loops
  have hlen : r.kinds.length ≤ r₂.kinds.length :=
    Nat.le_trans ha.le.length_le hb.le.length_le
  have e : Traversed t W path True [] r r₂ := by
    refine ⟨ht.extend hlen hloops, fun p _ => by rw [hloops], fun _ => ⟨record, htarget⟩,
      fun c ho _ hp => ?_⟩
    obtain ⟨hsub, hs⟩ := hp trivial record htarget
    have g := (Run.refl (t := t) hr).marker ho h₁ rfl (by simp [InstructionKind.parameters])
    refine (g.append ho hb (fun p hp => ?_) ?_ (by simp) (by simp)).1
    · exact g.known_pairs (fun v x hx => .of_active (hsub hx)) (ha.bindings ▸ hp)
    · rintro _ _ ⟨⟩
      exact hs
  exact (e.jump h₃).marker h₄ rfl rfl

end Shape

end Codegen
