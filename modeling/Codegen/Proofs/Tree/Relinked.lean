import Codegen.Tree.Basic

/-!
# Changes of single nodes

An edit changes a few links of a few nodes. The links behind a removal and behind an insertion are
given for all nodes at once.

* `Tree.node_update`, `Tree.node_createAt`: single nodes;
* `Tree.Relinked`: **only links differ**;
* `Tree.Unlinked`, `unlinked_remove`: the links behind a removal;
* `Tree.Inserted`, `inserted_insertBefore`, `inserted_addChild`: the links behind an insertion.
-/

namespace Codegen.Tree

variable {t t' : Tree} {m n p a : NodeId} {g : Node → Node}

/-! ## Changes of single nodes -/

@[simp] theorem size_update : (t.update n g).size = t.size := by
  simp [update, size]

theorem node_update : (t.update n g).node m =
    if m = n ∧ n < t.size then g (t.node m) else t.node m := by
  simp only [node, update, size, Array.getD_eq_getD_getElem?, Array.getElem?_modify]
  by_cases hm : n = m
  · subst hm
    by_cases hn : n < t.nodes.size <;> simp [hn]
  · simp [hm, Ne.symm hm]

theorem node_of_size_le (h : t.size ≤ n) : t.node n = default := by
  simp only [size] at h
  simp [node, Array.getD_eq_getD_getElem?, Array.getElem?_eq_none h]

theorem node_createAt {k : NodeKind} {position? : Option Position} :
    (t.createAt k position?).2.node m =
      if m = t.size then .detached k position? else t.node m := by
  simp only [createAt, node, size, Array.getD_eq_getD_getElem?, Array.getElem?_push]
  split <;> rfl

@[simp] theorem fst_createAt {k : NodeKind} {position? : Option Position} :
    (t.createAt k position?).1 = t.size := rfl

@[simp] theorem size_createAt {k : NodeKind} {position? : Option Position} :
    (t.createAt k position?).2.size = t.size + 1 := by
  simp [createAt, size]

/-- A new node has no links. -/
theorem links_createAt (k : NodeKind) (position? : Option Position) (m : NodeId) :
    (t.createAt k position?).2.parent? m = t.parent? m ∧
    (t.createAt k position?).2.first? m = t.first? m ∧
    (t.createAt k position?).2.last? m = t.last? m ∧
    (t.createAt k position?).2.previous? m = t.previous? m ∧
    (t.createAt k position?).2.next? m = t.next? m := by
  simp only [parent?, first?, last?, previous?, next?, node_createAt]
  split
  next hm =>
    rw [hm, node_of_size_le (Nat.le_refl _)]
    exact ⟨rfl, rfl, rfl, rfl, rfl⟩
  next => exact ⟨rfl, rfl, rfl, rfl, rfl⟩

theorem links_setKind (k : NodeKind) (m : NodeId) :
    (t.setKind n k).parent? m = t.parent? m ∧ (t.setKind n k).first? m = t.first? m ∧
    (t.setKind n k).last? m = t.last? m ∧ (t.setKind n k).previous? m = t.previous? m ∧
    (t.setKind n k).next? m = t.next? m := by
  simp only [parent?, first?, last?, previous?, next?, setKind, node_update]
  split <;> exact ⟨rfl, rfl, rfl, rfl, rfl⟩

/-- Only links differ. -/
structure Relinked (t t' : Tree) : Prop where
  size : t'.size = t.size
  kind : ∀ m, t'.kind m = t.kind m
  position : ∀ m, t'.position? m = t.position? m

namespace Relinked

theorem refl (t : Tree) : Relinked t t := ⟨rfl, fun _ => rfl, fun _ => rfl⟩

theorem update (h : Relinked t t')
    (hg : ∀ x, (g x).kind = x.kind ∧ (g x).position? = x.position? := by
      intro; exact ⟨rfl, rfl⟩) : Relinked t (t'.update n g) := by
  have same (m : NodeId) : ((t'.update n g).node m).kind = (t'.node m).kind ∧
      ((t'.update n g).node m).position? = (t'.node m).position? := by
    rw [node_update]
    split
    · exact hg _
    · exact ⟨rfl, rfl⟩
  exact ⟨size_update.trans h.size, fun m => (same m).1.trans (h.kind m),
    fun m => (same m).2.trans (h.position m)⟩

theorem update? (h : Relinked t t') {o : Option NodeId}
    (hg : ∀ x, (g x).kind = x.kind ∧ (g x).position? = x.position? := by
      intro; exact ⟨rfl, rfl⟩) : Relinked t (t'.update? o g) := by
  cases o
  · exact h
  · exact h.update hg

theorem remove (h : Relinked t t') (n : NodeId) : Relinked t (t'.remove n) := by
  rw [Tree.remove]
  rcases t'.node n with ⟨_, _, _, _, _, _ | l, _ | m⟩
  · exact h.update?.update?.update
  · exact h.update?.update.update
  · exact h.update.update?.update
  · exact h.update.update.update

theorem addChild (h : Relinked t t') (p n : NodeId) : Relinked t (t'.addChild p n) := by
  rw [Tree.addChild]
  have h := h.remove n
  cases (t'.remove n).last? p
  · exact h.update.update.update
  · exact h.update.update.update

theorem insertBefore (h : Relinked t t') (a n : NodeId) :
    Relinked t (t'.insertBefore a n) := by
  rw [Tree.insertBefore]
  split
  · exact h
  · have h := h.remove n
    dsimp only
    generalize t'.remove n = t₁ at h ⊢
    cases t₁.previous? a
    · exact h.update.update.update?
    · exact h.update.update.update

theorem replace (h : Relinked t t') (a n : NodeId) : Relinked t (t'.replace a n) := by
  rw [Tree.replace]
  split
  · exact h
  · exact ((h.remove n).insertBefore a n).remove a

theorem removeAll (h : Relinked t t') (ns : List NodeId) :
    Relinked t (ns.foldl Tree.remove t') := by
  induction ns generalizing t' with
  | nil => exact h
  | cons n ns ih => exact ih (h.remove n)

theorem splice (h : Relinked t t') (n source : NodeId) :
    Relinked t (t'.splice n source) := by
  rw [Tree.splice]
  generalize t'.children source = cs
  refine remove ?_ n
  induction cs generalizing t' with
  | nil => exact h
  | cons c cs ih => exact ih (h.insertBefore n c)

end Relinked

/-! ## Links behind an edit -/

theorem lt_size_of_node (h : t.node n ≠ default) : n < t.size :=
  Nat.lt_of_not_le fun hn => h (node_of_size_le hn)

theorem lt_size_of_parent (h : t.parent? n = some p) : n < t.size :=
  lt_size_of_node fun hn => by
    rw [parent?, hn] at h
    cases h

theorem lt_size_of_previous (h : t.previous? n = some p) : n < t.size :=
  lt_size_of_node fun hn => by
    rw [previous?, hn] at h
    cases h

theorem lt_size_of_next (h : t.next? n = some p) : n < t.size :=
  lt_size_of_node fun hn => by
    rw [next?, hn] at h
    cases h

/-- The links behind the removal of a node: its parent and its neighbours forget it. -/
structure Unlinked (t t' : Tree) (n : NodeId) : Prop where
  size : t'.size = t.size
  parent : ∀ m, t'.parent? m = if m = n then none else t.parent? m
  first : ∀ q, t'.first? q =
    if t.previous? n = none ∧ t.parent? n = some q then t.next? n else t.first? q
  last : ∀ q, t'.last? q =
    if t.next? n = none ∧ t.parent? n = some q then t.previous? n else t.last? q
  previous : ∀ m, t'.previous? m =
    if m = n then none else if t.next? n = some m then t.previous? n else t.previous? m
  next : ∀ m, t'.next? m =
    if m = n then none else if t.previous? n = some m then t.next? n else t.next? m

/-- The links behind the insertion of a node without links at a place: below a parent, between two
neighbours. -/
structure Inserted (t t' : Tree) (n : NodeId) (p? a? b? : Option NodeId) : Prop where
  size : t'.size = t.size
  parent : ∀ m, t'.parent? m = if m = n then p? else t.parent? m
  first : ∀ q, t'.first? q = if a? = none ∧ p? = some q then some n else t.first? q
  last : ∀ q, t'.last? q = if b? = none ∧ p? = some q then some n else t.last? q
  previous : ∀ m, t'.previous? m =
    if m = n then a? else if b? = some m then some n else t.previous? m
  next : ∀ m, t'.next? m = if m = n then b? else if a? = some m then some n else t.next? m

theorem unlinked_remove (hp : ∀ p, t.parent? n = some p → p < t.size)
    (ha : ∀ a, t.previous? n = some a → a < t.size) (hb : ∀ b, t.next? n = some b → b < t.size) :
    Unlinked t (t.remove n) n := by
  have hn : t.parent? n ≠ none ∨ t.previous? n ≠ none ∨ t.next? n ≠ none → n < t.size := by
    intro h
    simp only [Option.ne_none_iff_exists'] at h
    obtain ⟨x, hx⟩ | ⟨x, hx⟩ | ⟨x, hx⟩ := h
    · exact lt_size_of_parent hx
    · exact lt_size_of_previous hx
    · exact lt_size_of_next hx
  unfold parent? at hp hn
  unfold previous? at ha hn
  unfold next? at hb hn
  obtain ⟨p?, hp'⟩ : ∃ x, (t.node n).parent? = x := ⟨_, rfl⟩
  obtain ⟨a?, ha'⟩ : ∃ x, (t.node n).previous? = x := ⟨_, rfl⟩
  obtain ⟨b?, hb'⟩ : ∃ x, (t.node n).next? = x := ⟨_, rfl⟩
  refine ⟨((Relinked.refl t).remove n).size, ?_, ?_, ?_, ?_, ?_⟩
  all_goals
    simp only [Tree.remove, parent?, first?, last?, previous?, next?, hp', ha', hb', update?]
    cases p? <;> cases a? <;> cases b?
  all_goals
    simp only [size_update, node_update]
    grind

theorem inserted_insertBefore (hne : a ≠ n) (hn : n < t.size) (ha : a < t.size)
    (hp : ∀ p, (t.remove n).parent? a = some p → p < t.size)
    (hx : ∀ x, (t.remove n).previous? a = some x → x < t.size ∧ x ≠ n) :
    Inserted (t.remove n) (t.insertBefore a n) n ((t.remove n).parent? a)
      ((t.remove n).previous? a) (some a) := by
  have hsize := ((Relinked.refl t).remove n).size
  have hsize' := ((Relinked.refl t).insertBefore a n).size.trans hsize.symm
  rw [← hsize] at hn ha hp hx
  revert hsize'
  rw [Tree.insertBefore, if_neg hne]
  clear hsize
  generalize t.remove n = u at hn ha hp hx ⊢
  intro hsize
  obtain ⟨p?, hp'⟩ : ∃ x, u.parent? a = x := ⟨_, rfl⟩
  obtain ⟨a?, ha'⟩ : ∃ x, u.previous? a = x := ⟨_, rfl⟩
  rw [hp'] at hp
  rw [ha'] at hx
  refine ⟨hsize, ?_, ?_, ?_, ?_, ?_⟩
  all_goals
    simp only [hp', ha', update?]
    cases p? <;> cases a?
  all_goals
    simp only [parent?, first?, last?, previous?, next?, size_update, node_update]
    grind

theorem inserted_addChild (hp : p < t.size) (hn : n < t.size)
    (hx : ∀ x, (t.remove n).last? p = some x → x < t.size ∧ x ≠ n) :
    Inserted (t.remove n) (t.addChild p n) n (some p) ((t.remove n).last? p) none := by
  have hsize := ((Relinked.refl t).remove n).size
  have hsize' := ((Relinked.refl t).addChild p n).size.trans hsize.symm
  rw [← hsize] at hp hn hx
  revert hsize'
  rw [Tree.addChild]
  clear hsize
  generalize t.remove n = u at hp hn hx ⊢
  intro hsize
  obtain ⟨a?, ha'⟩ : ∃ x, u.last? p = x := ⟨_, rfl⟩
  rw [ha'] at hx
  refine ⟨hsize, ?_, ?_, ?_, ?_, ?_⟩
  all_goals
    simp only [ha']
    cases a?
  all_goals
    simp only [parent?, first?, last?, previous?, next?, size_update, node_update]
    grind

end Codegen.Tree
