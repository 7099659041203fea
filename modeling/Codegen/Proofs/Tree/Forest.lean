import Codegen.Proofs.Tree.Linked

/-!
# The links of a tree without loose siblings

While a tree is compiled, nothing is put before a node that has no parent. So the links are those
of a forest: only children have neighbours.

* `Tree.Forest`: **the links of a tree are those of the given lists of children**, and only children
  have neighbours;
* `Forest.linked`, `Linked.forest`: what is added to `Tree.Linked`;
* `Forest.createAt`, `remove`, `insertBefore`, `addChild`, `lift`, `replace`: the edits.
-/

namespace Codegen.Tree

variable {t t' : Tree} {m n p q : NodeId}

/-- **The links of the tree are those of the given lists of children.** A node without a parent has
no neighbours. -/
structure Forest (t : Tree) (f : NodeId → List NodeId) : Prop where
  inside : ∀ {p m}, m ∈ f p → p < t.size ∧ m < t.size
  parent : ∀ {p m}, t.parent? m = some p ↔ m ∈ f p
  distinct : ∀ p, (f p).Nodup
  first : ∀ p, t.first? p = (f p).head?
  last : ∀ p, t.last? p = (f p).getLast?
  siblings : ∀ {p m as bs}, f p = as ++ m :: bs →
    t.previous? m = as.getLast? ∧ t.next? m = bs.head?
  root : ∀ {m}, t.parent? m = none → t.previous? m = none ∧ t.next? m = none

variable {f : NodeId → List NodeId} {as bs : List NodeId}

theorem Forest.linked (h : Forest t f) : Linked t f where
  inside := h.inside
  parent := h.parent
  distinct := h.distinct
  first := h.first
  last := h.last
  siblings := h.siblings
  neighbours {a b} := by
    constructor
    · intro hab
      cases hp : t.parent? a with
      | none => simp [(h.root hp).2] at hab
      | some p =>
        obtain ⟨as, bs, hf⟩ := List.append_of_mem (h.parent.mp hp)
        rw [(h.siblings hf).2] at hab
        obtain ⟨bs, rfl⟩ := List.head?_eq_some_iff.mp hab
        rw [(h.siblings (hf.trans (List.append_cons ..))).1]
        simp
    · intro hab
      cases hp : t.parent? b with
      | none => simp [(h.root hp).1] at hab
      | some p =>
        obtain ⟨as, bs, hf⟩ := List.append_of_mem (h.parent.mp hp)
        rw [(h.siblings hf).1] at hab
        obtain ⟨as, rfl⟩ := List.getLast?_eq_some_iff.mp hab
        rw [(h.siblings (hf.trans (List.append_cons ..).symm)).2]
        simp

theorem Linked.forest (h : Linked t f)
    (hr : ∀ {m}, t.parent? m = none → t.previous? m = none ∧ t.next? m = none) : Forest t f :=
  ⟨h.inside, h.parent, h.distinct, h.first, h.last, h.siblings, hr⟩

namespace Forest

theorem parent_unique (h : Forest t f) (hp : m ∈ f p) (hq : m ∈ f q) : p = q :=
  h.linked.parent_unique hp hq

theorem length_le (h : Forest t f) (p : NodeId) : (f p).length ≤ t.size := h.linked.length_le p

/-- **The children of a node are its list.** -/
theorem children (h : Forest t f) (p : NodeId) : t.children p = f p := h.linked.children p

theorem eq_nil (h : Forest t f) (hp : t.size ≤ p) : f p = [] := h.linked.eq_nil hp

theorem congr (h : Forest t f) (hs : t.size ≤ t'.size)
    (hl : ∀ m, t'.parent? m = t.parent? m ∧ t'.first? m = t.first? m ∧ t'.last? m = t.last? m ∧
      t'.previous? m = t.previous? m ∧ t'.next? m = t.next? m) : Forest t' f :=
  (h.linked.congr hs hl).forest fun {m} hm => by
    obtain ⟨hparent, -, -, hprevious, hnext⟩ := hl m
    rw [hprevious, hnext]
    exact h.root (hparent ▸ hm)

/-! ## Edits -/

theorem createAt (h : Forest t f) (k : NodeKind) (position? : Option Position) :
    Forest (t.createAt k position?).2 f := h.congr (by simp) (links_createAt k position?)

theorem setKind (h : Forest t f) (n : NodeId) (k : NodeKind) : Forest (t.setKind n k) f :=
  h.congr (by simp [Tree.setKind]) (links_setKind k)

theorem remove (h : Forest t f) (n : NodeId) : Forest (t.remove n) fun q => (f q).erase n := by
  have hu := h.linked.unlinked_remove n
  refine (h.linked.remove n).forest fun {m} hm => ?_
  rw [hu.parent] at hm
  rw [hu.previous, hu.next]
  split at hm
  next hmn => simp [hmn]
  next hmn =>
    -- only children have neighbours, and a child of the list is no neighbour of other nodes
    have hroot := h.root hm
    have hp : t.next? n ≠ some m := fun hc => by simp [h.linked.neighbours.mp hc] at hroot
    have hn : t.previous? n ≠ some m := fun hc => by simp [h.linked.neighbours.mpr hc] at hroot
    rw [if_neg hmn, if_neg hmn, if_neg hp, if_neg hn]
    exact hroot

theorem addChild (h : Forest t f) (hp : p < t.size) (hn : n < t.size) :
    Forest (t.addChild p n)
      (Function.update (fun q => (f q).erase n) p ((f p).erase n ++ [n])) := by
  have h₁ := h.remove n
  have hi := h.linked.inserted_addChild hp hn
  refine (h.linked.addChild hp hn).forest fun {m} hm => ?_
  rw [hi.parent] at hm
  rw [hi.previous, hi.next]
  split at hm
  · cases hm
  next hmn =>
    have hl : (t.remove n).last? p ≠ some m := fun hc =>
      h₁.linked.not_mem hm p (List.mem_of_getLast? ((h₁.last p).symm.trans hc))
    rw [if_neg hmn, if_neg hmn, if_neg (by simp), if_neg hl]
    exact h₁.root hm

theorem insertBefore (h : Forest t f) {a : NodeId} (ha : a ∈ f p) (hne : a ≠ n)
    (hn : n < t.size) :
    Forest (t.insertBefore a n) fun q => inPlaceOf a [n, a] ((f q).erase n) := by
  have h₁ := h.remove n
  have hi := h.linked.inserted_insertBefore hne (h.inside ha).2 hn
  have hparent := h₁.parent.mpr ((List.mem_erase_of_ne hne).mpr ha)
  rw [hparent] at hi
  refine (h.linked.insertBefore hne (h.inside ha).2 hn).forest fun {m} hm => ?_
  rw [hi.parent] at hm
  rw [hi.previous, hi.next]
  split at hm
  · cases hm
  next hmn =>
    have hma : some a ≠ some m := fun hc => by simp [← Option.some.inj hc, hparent] at hm
    have hl : (t.remove n).previous? a ≠ some m := fun hc => by
      simpa [(h₁.root hm).2] using h₁.linked.neighbours.mpr hc
    rw [if_neg hmn, if_neg hmn, if_neg hma, if_neg hl]
    exact h₁.root hm

theorem lift (h : Forest t f) {a : NodeId} (ha : a ∈ f p) (hn : n < t.size) (hne : a ≠ n) :
    Forest (t.replace a n) fun q => ((f q).erase n).map fun m => if m = a then n else m := by
  have h₁ := h.linked.replace hne (h.inside ha).2 hn
  simp only [inPlaceOf_singleton] at h₁
  refine h₁.forest ?_
  rw [← ((Relinked.refl t).remove n).size] at hn
  have h₂ := ((h.remove n).insertBefore ((List.mem_erase_of_ne hne).mpr ha) hne hn).remove a
  rw [Tree.replace, if_neg hne]
  exact fun {m} hm => h₂.root hm

theorem replace (h : Forest t f) {a : NodeId} (ha : a ∈ f p) (hn : n < t.size)
    (hroot : ∀ q, n ∉ f q) :
    Forest (t.replace a n) fun q => (f q).map fun m => if m = a then n else m := by
  have hne : a ≠ n := fun hc => hroot p (hc ▸ ha)
  convert h.lift ha hn hne using 3 with q
  exact (List.erase_of_not_mem (hroot q)).symm

end Forest

end Codegen.Tree
