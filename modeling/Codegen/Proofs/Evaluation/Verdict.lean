import Codegen.Proofs.Evaluation.Step
import Codegen.Proofs.Tree.Below

/-!
# Verdicts of tests

All tests for well-formedness become literals in one pass, each by what is below it when the pass
begins: those around it are judged first, and a literal in the place of one of them changes nothing
below.

* `Tree.Sound.replaceByNumber`: a literal in the place of a node;
* `Program.compiles`: is there nothing below a node that a test fails for?
* `Tree.Stands`: a node with all below it, as it stands in a tree;
* `Tree.exchanged`: the numbers of the literals that take the places of nodes one after another;
* `Judged`: **all tests below a node are judged**, and nothing else changes;
* `Tree.Sound.decideProbes_judged`: **the pass judges all tests by the tree that it begins with**;
* `Judged.findAll_eq_nil`: no test is left.
-/

namespace Codegen

open Relation Shape

/-- Is there nothing below a node that keeps a test from succeeding? -/
def Program.compiles (p : Program) (n : NodeId) : Bool :=
  !(p.tree.descendants n).any (Evaluating.isProblem p)

/-! ## Nodes apart -/

namespace Shape

theorem siblings_induction {P : List Shape → Prop} (hnil : P [])
    (hcons : ∀ s X, P s.parts → P X → P (s :: X)) (X : List Shape) : P X := by
  have all {X : List Shape} (h : ∀ s ∈ X, P s.parts) : P X := by
    induction X with
    | nil => exact hnil
    | cons s X ih =>
      rw [List.forall_mem_cons] at h
      exact hcons s X h.1 (ih h.2)
  exact all fun s _ => below_induction (fun _ _ _ ih => all ih) s

theorem pairwise_subs {X : List Shape} (h : (ids X).Nodup) :
    (subs X).Pairwise fun s u => s.id ∉ ids [u] := by
  have apart {n : NodeId} {Y : List Shape} {u : Shape} (hn : n ∉ ids Y) (hu : u ∈ subs Y) :
      n ∉ ids [u] := fun hm => hn ((ids_sublist hu).subset hm)
  induction X using siblings_induction with
  | hnil => simp
  | hcons s X ihs ihX =>
    rw [ids_cons, List.nodup_cons, List.mem_append, not_or, List.nodup_append] at h
    obtain ⟨⟨hs, hX⟩, hparts, hrest, hd⟩ := h
    rw [subs_cons, List.pairwise_cons, List.pairwise_append]
    refine ⟨fun u hu => ?_, ihs hparts, ihX hrest, fun c hc u hu => ?_⟩
    · exact (List.mem_append.mp hu).elim (apart hs) (apart hX)
    · exact apart (fun hm => hd _ (id_mem_ids hc) _ hm rfl) hu

end Shape

namespace Tree

variable {t : Tree} {s u : Shape} {n q : NodeId} {v : Word}

/-! ## Literals in the places of nodes -/

theorem size_replaceByNumber : (t.replaceByNumber n v).size = t.size + 1 :=
  ((Relinked.refl (t.createAt (.number (.integer v) .i64) (t.position? n)).2).replace n
    t.size).size.trans (by simp)

theorem Linked.replaceByNumber {f : NodeId → List NodeId} (h : Linked t f) (hn : n < t.size) :
    Linked (t.replaceByNumber n v) fun q => (f q).map fun m => if m = n then t.size else m := by
  have hlist (q : NodeId) : (f q).erase t.size = f q :=
    List.erase_of_not_mem fun hm => Nat.lt_irrefl _ (h.inside hm).2
  have hl := (h.createAt (.number (.integer v) .i64) (t.position? n)).replace (Nat.ne_of_lt hn)
    (by simpa using Nat.lt_succ_of_lt hn) (by simp)
  simp only [hlist, inPlaceOf_singleton] at hl
  exact hl

/-- **A literal in the place of a node.** -/
theorem Sound.replaceByNumber (h : t.Sound) (hn : n < t.size) : (t.replaceByNumber n v).Sound ∧
    ∀ q, (t.replaceByNumber n v).children q =
      (t.children q).map fun m => if m = n then t.size else m := by
  have hl := h.linked.replaceByNumber (v := v) hn
  have hmade := h.linked.createAt (.number (.integer v) .i64) (t.position? n)
  have hacyclic : (t.createAt (.number (.integer v) .i64) (t.position? n)).2.Acyclic :=
    h.acyclic.congr fun m => (links_createAt _ _ m).1
  -- nothing is below the literal when it is put somewhere
  have habove : ¬ TransGen (t.createAt (.number (.integer v) .i64) (t.position? n)).2.Under
      n t.size := fun hm => by
    obtain ⟨m, -, hm⟩ := TransGen.tail'_iff.mp hm
    exact Nat.lt_irrefl _ (h.linked.inside (hmade.under.mp hm)).1
  exact ⟨hl.sound (hacyclic.replace hmade (Nat.ne_of_lt hn) (by simpa using Nat.lt_succ_of_lt hn)
    (by simp) habove), hl.children⟩

/-! ## Nodes that stand -/

/-- **A node with all below it, as it stands in a tree**, wherever that is. -/
structure Stands (t : Tree) (s : Shape) : Prop where
  displays : Displays t t.children [s]
  distinct : (ids [s]).Nodup
  made : ∀ j ∈ ids [s], j < t.size

theorem Stands.descendants (h : Stands t s) (ht : t.Sound) : t.descendants s.id = ids s.parts := by
  obtain ⟨⟨-, hs⟩, hparts, -⟩ := Displays.cons.mp h.displays
  have hlength := length_ids_le h.distinct h.made
  rw [Tree.descendants, hs]
  refine preorder_eq ht.linked hparts ?_
  simp only [ids_cons, ids_nil, List.append_nil, List.length_cons] at hlength
  omega

/-- **A literal elsewhere leaves it as it stands.** -/
theorem Stands.replaceByNumber (h : Stands t s) (ht : t.Sound) (hlt : n < t.size)
    (hn : n ∉ ids [s]) : Stands (t.replaceByNumber n v) s where
  displays := h.displays.congr
    (fun j hj => by rw [kind_replaceByNumber, if_neg (Nat.ne_of_lt (h.made j hj))])
    fun j hj => ((ht.replaceByNumber hlt).2 j).trans (Shows.map_replace fun hm => hn (by
      obtain ⟨u, hu, rfl⟩ := mem_ids.mp hj
      rw [(h.displays u hu).2] at hm
      exact ids_parts hu (map_id_subset hm)))
  distinct := h.distinct
  made j hj := size_replaceByNumber ▸ Nat.lt_succ_of_lt (h.made j hj)

theorem Sound.stands (h : t.Sound) {i : NodeId} (hs : s ∈ subs (t.shape (t.size + 1) i).parts) :
    Stands t s where
  displays := (h.displays_parts i).sub hs
  distinct := (ids_sublist hs).nodup (h.nodup_shape i)
  made _ hj := h.below_lt (h.mem_ids_shape.mp ((ids_sublist hs).subset hj))

end Tree

/-! ## One test after another -/

/-- The number of what is at the place of a node, when literals that are made one after another have
taken the places of some nodes. -/
def Tree.exchanged (t : Tree) (ns : List NodeId) (n : NodeId) : NodeId :=
  if n ∈ ns then t.size + ns.idxOf n else n

@[simp] theorem Tree.exchanged_nil {t : Tree} : t.exchanged [] = fun n => n := by
  funext n
  simp [Tree.exchanged]

theorem Tree.exchanged_replaceByNumber {t : Tree} {n m : NodeId} {ns : List NodeId} {v : Word}
    (hns : t.size ∉ ns) : (t.replaceByNumber n v).exchanged ns (if m = n then t.size else m) =
      t.exchanged (n :: ns) m := by
  rw [Tree.exchanged, Tree.exchanged, size_replaceByNumber]
  by_cases hm : m = n
  · simp [hm, hns]
  · by_cases hmem : m ∈ ns
    · simp only [hm, if_false, hmem, if_true, List.mem_cons, or_true,
        List.idxOf_cons_ne _ (Ne.symm hm)]
      rw [Nat.add_assoc, Nat.add_comm 1]
    · simp [hm, hmem]

namespace Evaluating

variable {p p' : Program} {s : Shape} {ss : List Shape} {n : NodeId} {v : Word}

theorem decideProbe_run (n : NodeId) (p : Program) : decideProbe n p =
    .ok () { p with tree := p.tree.replaceByNumber n (Tree.truth (p.compiles n)) } := rfl

theorem compiles_replaceByNumber (h : Tree.Stands p.tree s) (ht : p.tree.Sound)
    (hlt : n < p.tree.size) (hn : n ∉ ids [s]) :
    Program.compiles { p with tree := p.tree.replaceByNumber n v } s.id = p.compiles s.id := by
  have hsub : ids s.parts ⊆ ids [s] := by simp
  rw [Program.compiles, Program.compiles, h.descendants ht,
    (h.replaceByNumber ht hlt hn).descendants (ht.replaceByNumber hlt).1]
  refine congrArg (!·) ?_
  rw [Bool.eq_iff_iff, List.any_eq_true, List.any_eq_true]
  refine exists_congr fun m => and_congr_right fun hm => ?_
  simp only [isProblem, Tree.kind_replaceByNumber, if_neg (Nat.ne_of_lt (h.made m (hsub hm)))]

/-- **Tests that are judged one after another**, those around others first. -/
theorem decideEach_judged (ht : p.tree.Sound) (hss : ∀ s ∈ ss, Tree.Stands p.tree s)
    (hapart : ss.Pairwise fun s u => s.id ∉ ids [u]) :
    ∃ p', (ss.map (·.id)).forM decideProbe p = .ok () p' ∧ p'.symbols = p.symbols ∧
      p'.tree.Sound ∧ p'.tree.size = p.tree.size + ss.length ∧
      (∀ q, p'.tree.children q =
        (p.tree.children q).map (p.tree.exchanged (ss.map (·.id)))) ∧
      (∀ m < p.tree.size, p'.tree.kind m = p.tree.kind m) ∧
      ∀ s ∈ ss, p'.tree.kind (p.tree.exchanged (ss.map (·.id)) s.id) =
        .number (.integer (Tree.truth (p.compiles s.id))) .i64 := by
  induction ss generalizing p with
  | nil => exact ⟨p, rfl, rfl, ht, rfl, by simp, fun _ _ => rfl, by simp⟩
  | cons s ss ih =>
    rw [List.forall_mem_cons] at hss
    rw [List.pairwise_cons] at hapart
    obtain ⟨hs, hss⟩ := hss
    obtain ⟨hs', hapart⟩ := hapart
    have hlt : s.id < p.tree.size := hs.made s.id (by simp)
    obtain ⟨ht', hchildren⟩ := ht.replaceByNumber (v := Tree.truth (p.compiles s.id)) hlt
    have hmade : p.tree.size ∉ ss.map (·.id) := fun hm => by
      obtain ⟨u, hu, he⟩ := List.mem_map.mp hm
      exact Nat.ne_of_lt ((hss u hu).made u.id (by simp)) he
    have hne {u : Shape} (hu : u ∈ ss) : u.id ≠ s.id := fun he => hs' u hu (by simp [he])
    -- the others stand as they did, and are found what they were
    obtain ⟨p', hrun, hsymbols, hsound, hsize, hlists, hkind, hliteral⟩ := ih
      (p := { p with tree := p.tree.replaceByNumber s.id (Tree.truth (p.compiles s.id)) })
      ht' (fun u hu => (hss u hu).replaceByNumber ht hlt (hs' u hu)) hapart
    refine ⟨p', ?_, hsymbols, hsound, ?_, fun q => ?_, fun m hm => ?_, ?_⟩
    · simp only [List.map_cons, List.forM_eq_forM, List.forM_cons, bind, EStateM.bind,
        decideProbe_run] at hrun ⊢
      exact hrun
    · rw [hsize, Tree.size_replaceByNumber, List.length_cons, Nat.add_right_comm, Nat.add_assoc]
    · rw [hlists, hchildren, List.map_map]
      exact List.map_congr_left fun m _ => Tree.exchanged_replaceByNumber hmade
    · rw [hkind m (Tree.size_replaceByNumber ▸ Nat.lt_succ_of_lt hm), Tree.kind_replaceByNumber,
        if_neg (Nat.ne_of_lt hm)]
    · rw [List.forall_mem_cons]
      refine ⟨?_, fun u hu => ?_⟩
      · rw [List.map_cons,
          ← Tree.exchanged_replaceByNumber (v := Tree.truth (p.compiles s.id)) hmade, if_pos rfl,
          Tree.exchanged, if_neg hmade,
          hkind _ (Tree.size_replaceByNumber ▸ Nat.lt_succ_self _), Tree.kind_replaceByNumber,
          if_pos rfl]
      · have hlit := hliteral u hu
        rw [compiles_replaceByNumber (hss u hu) ht hlt (hs' u hu)] at hlit
        rw [List.map_cons,
          ← Tree.exchanged_replaceByNumber (v := Tree.truth (p.compiles s.id)) hmade,
          if_neg (hne hu), hlit]

end Evaluating

/-! ## All tests -/

/-- **All tests below a node are judged**, by what is below each of them: a literal takes its place.
Nothing else changes. -/
structure Judged (i : NodeId) (p p' : Program) : Prop where
  symbols : p'.symbols = p.symbols
  size : p'.tree.size = p.tree.size + (p.tree.findAll i (· == .compiles)).length
  kind : ∀ n < p.tree.size, p'.tree.kind n = p.tree.kind n
  children : ∀ q, p'.tree.children q =
    (p.tree.children q).map (p.tree.exchanged (p.tree.findAll i (· == .compiles)))
  literal : ∀ n ∈ p.tree.findAll i (· == .compiles),
    p'.tree.kind (p.tree.exchanged (p.tree.findAll i (· == .compiles)) n) =
      .number (.integer (Tree.truth (p.compiles n))) .i64

/-- **The pass judges all tests by the tree that it begins with.** -/
theorem Tree.Sound.decideProbes_judged {p : Program} (h : p.tree.Sound) (i : NodeId) :
    ∃ p', Evaluating.decideProbes i p = .ok (!(p.tree.findAll i (· == .compiles)).isEmpty) p' ∧
      p'.tree.Sound ∧ Judged i p p' := by
  have hfind : p.tree.findAll i (· == .compiles) =
      ((subs (p.tree.shape (p.tree.size + 1) i).parts).filter (·.kind == .compiles)).map
        (·.id) := by
    rw [Tree.findAll, h.descendants_eq, ids, List.filter_map]
    refine congrArg (List.map _) (List.filter_congr fun s hs => ?_)
    rw [Function.comp_apply, (h.displays_parts i s hs).1]
  obtain ⟨p', hrun, hsymbols, hsound, hsize, hlists, hkind, hliteral⟩ :=
    Evaluating.decideEach_judged h
      (fun s hs => h.stands (List.mem_of_mem_filter hs))
      ((pairwise_subs (h.nodup_shape i)).filter (·.kind == .compiles))
  rw [← hfind] at hrun hlists hliteral
  refine ⟨p', ?_, hsound, hsymbols, ?_, hkind, hlists, fun n hn => ?_⟩
  · simp only [Evaluating.decideProbes, bind, EStateM.bind, get, getThe, MonadStateOf.get,
      EStateM.get, hrun]
    rfl
  · rw [hsize, hfind, List.length_map]
  · rw [hfind, List.mem_map] at hn
    obtain ⟨s, hs, rfl⟩ := hn
    exact hliteral s hs

namespace Judged

variable {p p' : Program} {i n q : NodeId}

theorem below (h : Judged i p p') (ht : p.tree.Sound) (ht' : p'.tree.Sound)
    (hn : TransGen p'.tree.Under n i) :
    TransGen p.tree.Under n i ∧ n ∉ p.tree.findAll i (· == .compiles) ∨
      p.tree.size ≤ n ∧ (p'.tree.kind n).isNumber = true := by
  have place {m q : NodeId} (hm : p'.tree.Under m q)
      (hq : ∀ c, p.tree.Under c q → TransGen p.tree.Under c i) :
      TransGen p.tree.Under m i ∧ m ∉ p.tree.findAll i (· == .compiles) ∨
        p.tree.size ≤ m ∧ (p'.tree.kind m).isNumber = true := by
    rw [ht'.linked.under, h.children, List.mem_map] at hm
    obtain ⟨c, hc, rfl⟩ := hm
    by_cases hprobe : c ∈ p.tree.findAll i (· == .compiles)
    · refine .inr ⟨?_, by rw [h.literal c hprobe]; rfl⟩
      rw [Tree.exchanged, if_pos hprobe]
      exact Nat.le_add_right _ _
    · rw [Tree.exchanged, if_neg hprobe]
      exact .inl ⟨hq c (ht.linked.under.mpr hc), hprobe⟩
  induction hn using TransGen.head_induction_on with
  | single hn => exact place hn fun c hc => .single hc
  | @head m q hm _ ih =>
    rcases ih with ⟨hq, -⟩ | ⟨hnew, -⟩
    · exact place hm fun c hc => .head hc hq
    · -- nothing is below a literal
      rw [ht'.linked.under, h.children, ht.linked.eq_nil hnew] at hm
      cases hm

/-- **No test is left.** -/
theorem findAll_eq_nil (h : Judged i p p') (ht : p.tree.Sound) (ht' : p'.tree.Sound) :
    p'.tree.findAll i (· == .compiles) = [] := by
  rw [List.eq_nil_iff_forall_not_mem]
  intro n hn
  obtain ⟨hbelow, hk⟩ := ht'.mem_findAll.mp hn
  rcases h.below ht ht' hbelow with ⟨hold, hno⟩ | ⟨-, hnumber⟩
  · exact hno (ht.mem_findAll.mpr ⟨hold, by rwa [h.kind n (ht.below_lt hold)] at hk⟩)
  · rw [beq_iff_eq.mp hk] at hnumber
    cases hnumber

end Judged

end Codegen
