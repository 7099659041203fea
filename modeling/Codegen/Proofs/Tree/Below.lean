import Codegen.Proofs.Tree.Ancestors
import Codegen.Proofs.Tree.Read
import Codegen.Proofs.Tree.Siblings
import Codegen.Proofs.Tree.Edits

/-!
# The nodes below a node

In a tree without cycles each node has a shape, with all that is below it; so a walk finds all nodes
below a node, each once.

* `Linked.displays_shape`, `Sound.displays`: **the shape at a node is displayed**;
* `Sound.mem_descendants`: **the descendants of a node are all the nodes below it**;
* `Sound.nodup_descendants`: each is found once.
-/

namespace Codegen.Tree

open Relation Shape

variable {t : Tree} {f : NodeId → List NodeId} {i m n : NodeId} {k : Nat}

theorem Linked.displays_shape (h : Linked t f) (hn : t.Shallow k n) :
    Displays t f [t.shape k n] := by
  induction k generalizing n with
  | zero => exact hn.elim
  | succ k ih =>
    refine Displays.cons.mpr ⟨⟨rfl, ?_⟩, fun s hs => ?_, by simp [Displays]⟩
    · have hid : (fun c => (t.shape k c).id) = fun c => c := by
        funext c
        cases k <;> rfl
      simp [shape, h.children, hid, Function.comp_def]
    · obtain ⟨u, hu, hs⟩ := mem_subs.mp hs
      obtain ⟨c, hc, rfl⟩ := List.mem_map.mp hu
      exact ih (hn c hc) s (by simpa using hs)

namespace Sound

variable (h : t.Sound)
include h

/-- **A node has a shape**, with all that is below it. -/
theorem displays (n : NodeId) : Displays t t.children [t.shape (t.size + 1) n] :=
  h.linked.displays_shape (h.linked.shallow h.acyclic n)

theorem children_eq (i : NodeId) :
    t.children i = (t.shape (t.size + 1) i).parts.map (·.id) :=
  (h.displays i _ (mem_subs_of_mem List.mem_cons_self)).2

theorem displays_parts (i : NodeId) : Displays t t.children (t.shape (t.size + 1) i).parts :=
  (h.displays i).parts (mem_subs_of_mem List.mem_cons_self)

theorem mem_ids_shape : n ∈ ids (t.shape (t.size + 1) i).parts ↔ TransGen t.Under n i := by
  have hd := h.displays i
  constructor
  · intro hn
    obtain ⟨s, hs, rfl⟩ := mem_ids.mp hn
    obtain ⟨c, hc, hs⟩ := mem_subs.mp hs
    have hci : t.Under c.id i := h.linked.under.mpr (hd.mem (mem_subs_of_mem List.mem_cons_self) hc)
    refine subs_induction (P := fun s => TransGen t.Under s.id i) (.single hci)
      (fun u hu hui w hw => ?_) (show s ∈ subs [c] by simpa using hs)
    exact .head (h.linked.under.mpr ((hd.part hc).mem hu hw)) hui
  · intro hn
    induction hn using TransGen.head_induction_on with
    | single hn =>
      rw [h.linked.under, h.children_eq] at hn
      exact map_id_subset hn
    | head hn _ ih =>
      obtain ⟨s, hs, rfl⟩ := mem_ids.mp ih
      rw [h.linked.under, (h.displays_parts i s hs).2] at hn
      exact ids_parts hs (map_id_subset hn)

theorem below_lt (hn : TransGen t.Under n i) : n < t.size := by
  obtain ⟨q, hq, -⟩ := TransGen.head'_iff.mp hn
  exact (h.linked.inside (h.linked.under.mp hq)).2

theorem nodup_shape (i : NodeId) : (ids (t.shape (t.size + 1) i).parts).Nodup := by
  have hnodup := (h.displays i).nodup h.linked
  rw [ids_cons, ids_nil, List.append_nil, List.nodup_cons] at hnodup
  exact hnodup.2

theorem descendants_eq (i : NodeId) : t.descendants i = ids (t.shape (t.size + 1) i).parts := by
  have hlength := length_ids_le (h.nodup_shape i) fun j hj => h.below_lt (h.mem_ids_shape.mp hj)
  rw [Tree.descendants, h.children_eq]
  exact preorder_eq h.linked (h.displays_parts i) (Nat.le_succ_of_le hlength)

/-- **The descendants of a node are all the nodes below it.** -/
theorem mem_descendants : n ∈ t.descendants i ↔ TransGen t.Under n i := by
  rw [h.descendants_eq, h.mem_ids_shape]

theorem nodup_descendants (i : NodeId) : (t.descendants i).Nodup :=
  h.descendants_eq i ▸ h.nodup_shape i

theorem mem_findAll {p : NodeKind → Bool} :
    n ∈ t.findAll i p ↔ TransGen t.Under n i ∧ p (t.kind n) = true := by
  rw [findAll, List.mem_filter, h.mem_descendants]

theorem length_findAll_le (i : NodeId) (p : NodeKind → Bool) : (t.findAll i p).length ≤ t.size := by
  refine (List.filter_sublist.length_le).trans ?_
  rw [h.descendants_eq]
  exact length_ids_le (h.nodup_shape i) fun j hj => h.below_lt (h.mem_ids_shape.mp hj)

/-! ## Edits -/

theorem remove (n : NodeId) : (t.remove n).Sound :=
  (h.linked.remove n).sound (h.acyclic.remove h.linked n)

theorem setKind (n : NodeId) (k : NodeKind) : (t.setKind n k).Sound :=
  (h.linked.setKind n k).sound (h.acyclic.congr fun m => (links_setKind k m).1)

theorem under_remove : (t.remove n).Under m i ↔ m ≠ n ∧ t.Under m i := by
  rw [Under, (h.linked.unlinked_remove n).parent]
  split <;> simp [*, Under]

theorem under_replace {a : NodeId} (hne : a ≠ n) (ha : a < t.size) (hn : n < t.size) :
    (t.replace a n).Under m i ↔ m ≠ a ∧ m ≠ n ∧ t.Under m i ∨ m = n ∧ t.Under a i := by
  rw [(h.linked.replace hne ha hn).under, mem_inPlaceOf, (h.linked.distinct i).mem_erase_iff,
    (h.linked.distinct i).mem_erase_iff, List.mem_singleton, h.linked.under, h.linked.under]
  tauto

theorem under_splice {s : NodeId} (hs : ¬ t.Under n s) (hn : n < t.size) :
    (t.splice n s).Under m i ↔
      i ≠ s ∧ (m ≠ n ∧ t.Under m i ∨ t.Under n i ∧ t.Under m s) := by
  rw [h.linked.under] at hs
  rw [(h.linked.splice hs hn).under, h.linked.under, h.linked.under, h.linked.under]
  split
  next hi => simp [hi]
  next hi =>
    rw [mem_inPlaceOf]
    tauto

end Sound

/-! ## A test of trees -/

/-- Are the links of a tree consistent, and does the way up from each node end? -/
def isSound (t : Tree) : Bool :=
  t.isForest && (List.range t.size).all fun n =>
    decide ((t.lineage (t.size + 1) (some n)).length ≤ t.size)

theorem length_lineage (hn : TransGen t.Under n n) : (t.lineage k (some n)).length = k := by
  induction k generalizing n with
  | zero => rfl
  | succ k ih =>
    obtain ⟨q, hq, hqn⟩ := TransGen.head'_iff.mp hn
    rw [lineage, show t.parent? n = some q from hq, List.length_cons,
      ih (TransGen.tail'_iff.mpr ⟨n, hqn, hq⟩)]

theorem sound_of_isSound (h : t.isSound = true) : t.Sound := by
  simp only [isSound, Bool.and_eq_true, List.all_eq_true, List.mem_range, decide_eq_true_eq] at h
  obtain ⟨hforest, hways⟩ := h
  have hl := (forest_of_isForest hforest).linked
  refine ⟨hl, fun n hn => ?_⟩
  obtain ⟨q, hq, -⟩ := TransGen.head'_iff.mp hn
  have hlength := hways n (hl.inside (hl.under.mp hq)).2
  rw [length_lineage hn] at hlength
  omega

theorem under_setKind {k : NodeKind} : (t.setKind n k).Under m i ↔ t.Under m i := by
  rw [Under, (links_setKind k m).1, Under]

end Codegen.Tree
