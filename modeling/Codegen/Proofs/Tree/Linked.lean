import Codegen.Proofs.Tree.Relinked
import Mathlib.Data.List.Nodup
import Mathlib.Data.List.Perm.Subperm

/-!
# The links of a tree

Each node has a list of children; its first and its last child, its parent and its neighbours are
read off these lists. Nodes without a parent may have neighbours too: they are what is put before a
node that has no parent. An edit changes the lists as its name says.

* `Tree.Linked`: **the links are those of the given lists of children**;
* `Tree.withLast`, `Tree.inPlaceOf`: a new last member, and members in the place of another one;
* `Linked.children`, `Linked.parent_eq`: what the links say;
* `Linked.remove`, `addChild`, `insertBefore`, `replace`, `splice`: **the edits, on these lists**.
-/

namespace Codegen.Tree

variable {t t' : Tree} {m n p q a b : NodeId}

/-! ## Members in the place of others -/

/-- A node becomes the last member of one list, and of no other one. -/
def withLast (f : NodeId → List NodeId) (p n : NodeId) : NodeId → List NodeId :=
  Function.update (fun q => (f q).erase n) p ((f p).erase n ++ [n])

theorem mem_of_withLast {f : NodeId → List NodeId} (hm : m ∈ withLast f p n q) :
    m ∈ f q ∨ m = n ∧ q = p := by
  unfold withLast at hm
  by_cases hq : q = p
  · subst hq
    rw [Function.update_self, List.mem_append, List.mem_singleton] at hm
    exact hm.imp List.mem_of_mem_erase fun hm => ⟨hm, rfl⟩
  · rw [Function.update_of_ne hq] at hm
    exact .inl (List.mem_of_mem_erase hm)

/-- The given members in the place of one. -/
def inPlaceOf (a : NodeId) (ns ms : List NodeId) : List NodeId :=
  ms.flatMap fun m => if m = a then ns else [m]

section

variable {as bs ns ms : List NodeId}

@[simp] theorem inPlaceOf_nil : inPlaceOf a ns [] = [] := rfl

@[simp] theorem inPlaceOf_cons :
    inPlaceOf a ns (m :: ms) = (if m = a then ns else [m]) ++ inPlaceOf a ns ms := rfl

@[simp] theorem inPlaceOf_append :
    inPlaceOf a ns (as ++ bs) = inPlaceOf a ns as ++ inPlaceOf a ns bs := List.flatMap_append

theorem mem_inPlaceOf : m ∈ inPlaceOf a ns ms ↔ m ∈ ms ∧ m ≠ a ∨ a ∈ ms ∧ m ∈ ns := by
  rw [inPlaceOf, List.mem_flatMap]
  constructor
  · rintro ⟨x, hx, hm⟩
    split at hm
    next hxa => exact .inr ⟨hxa ▸ hx, hm⟩
    next hxa =>
      obtain rfl := List.mem_singleton.mp hm
      exact .inl ⟨hx, hxa⟩
  · rintro (⟨hm, hma⟩ | ⟨ha, hm⟩)
    · exact ⟨m, hm, by simp [hma]⟩
    · exact ⟨a, ha, by simp [hm]⟩

theorem inPlaceOf_of_not_mem (h : a ∉ ms) : inPlaceOf a ns ms = ms := by
  induction ms with
  | nil => rfl
  | cons m ms ih =>
    rw [List.mem_cons, not_or] at h
    rw [inPlaceOf_cons, if_neg (Ne.symm h.1), ih h.2, List.singleton_append]

theorem inPlaceOf_split (h : (as ++ a :: bs).Nodup) :
    inPlaceOf a ns (as ++ a :: bs) = as ++ ns ++ bs := by
  rw [List.nodup_middle, List.nodup_cons, List.mem_append, not_or] at h
  rw [inPlaceOf_append, inPlaceOf_cons, if_pos rfl, inPlaceOf_of_not_mem h.1.1,
    inPlaceOf_of_not_mem h.1.2, List.append_assoc]

theorem inPlaceOf_inPlaceOf :
    inPlaceOf a ns (inPlaceOf a bs ms) = inPlaceOf a (inPlaceOf a ns bs) ms := by
  induction ms with
  | nil => rfl
  | cons m ms ih =>
    rw [inPlaceOf_cons, inPlaceOf_append, ih, inPlaceOf_cons]
    by_cases hm : m = a <;> simp [hm]

theorem inPlaceOf_self : inPlaceOf a [a] ms = ms := by
  induction ms with
  | nil => rfl
  | cons m ms ih =>
    rw [inPlaceOf_cons, ih]
    by_cases hm : m = a <;> simp [hm]

theorem inPlaceOf_singleton : inPlaceOf a [n] ms = ms.map fun m => if m = a then n else m := by
  induction ms with
  | nil => rfl
  | cons m ms ih =>
    rw [inPlaceOf_cons, ih, List.map_cons]
    split <;> rfl

theorem erase_eq_inPlaceOf (h : ms.Nodup) : ms.erase a = inPlaceOf a [] ms := by
  by_cases ha : a ∈ ms
  · obtain ⟨as, bs, rfl⟩ := List.append_of_mem ha
    rw [inPlaceOf_split h]
    rw [List.nodup_middle, List.nodup_cons, List.mem_append, not_or] at h
    rw [List.erase_append_right _ h.1.1, List.erase_cons_head, List.append_nil]
  · rw [List.erase_of_not_mem ha, inPlaceOf_of_not_mem ha]

end

/-! ## Lists of children -/

/-- **The links of the tree are those of the given lists of children.** Neighbours know each other,
also those of nodes without a parent. -/
structure Linked (t : Tree) (f : NodeId → List NodeId) : Prop where
  inside : ∀ {p m}, m ∈ f p → p < t.size ∧ m < t.size
  parent : ∀ {p m}, t.parent? m = some p ↔ m ∈ f p
  distinct : ∀ p, (f p).Nodup
  first : ∀ p, t.first? p = (f p).head?
  last : ∀ p, t.last? p = (f p).getLast?
  siblings : ∀ {p m as bs}, f p = as ++ m :: bs →
    t.previous? m = as.getLast? ∧ t.next? m = bs.head?
  neighbours : ∀ {a b}, t.next? a = some b ↔ t.previous? b = some a

namespace Linked

variable {f : NodeId → List NodeId} {as bs : List NodeId}

theorem parent_unique (h : Linked t f) (hp : m ∈ f p) (hq : m ∈ f q) : p = q :=
  Option.some.inj ((h.parent.mpr hp).symm.trans (h.parent.mpr hq))

theorem not_mem (h : Linked t f) (hn : t.parent? n = none) (q : NodeId) : n ∉ f q := fun hm => by
  rw [h.parent.mpr hm] at hn
  cases hn

theorem siblings_eq (h : Linked t f) {fuel : Nat} (hf : f p = as ++ bs) (hl : bs.length < fuel) :
    t.siblings fuel bs.head? = bs := by
  induction bs generalizing as fuel with
  | nil => cases fuel <;> rfl
  | cons m bs ih =>
    cases fuel with
    | zero => simp at hl
    | succ fuel =>
      have hnext := (h.siblings hf).2
      rw [List.head?_cons, Tree.siblings, hnext,
        ih (by rw [hf, List.append_cons]) (by simpa using hl)]

theorem length_le (h : Linked t f) (p : NodeId) : (f p).length ≤ t.size := by
  have hsub : f p ⊆ List.range t.size := fun m hm => List.mem_range.mpr (h.inside hm).2
  have := ((h.distinct p).subperm hsub).length_le
  simpa using this

/-- **The children of a node are its list.** -/
theorem children (h : Linked t f) (p : NodeId) : t.children p = f p := by
  have hlength := h.length_le p
  rw [Tree.children, h.first p]
  exact h.siblings_eq (List.nil_append _).symm (by omega)

theorem eq_nil (h : Linked t f) (hp : t.size ≤ p) : f p = [] :=
  List.eq_nil_iff_forall_not_mem.mpr fun _ hm => absurd (h.inside hm).1 (Nat.not_lt.mpr hp)

theorem mem_of_next (h : Linked t f) (hn : t.next? a = some b) (ha : a ∈ f p) : b ∈ f p := by
  obtain ⟨as, bs, hf⟩ := List.append_of_mem ha
  rw [(h.siblings hf).2] at hn
  simp [hf, List.mem_of_mem_head? hn]

theorem mem_of_previous (h : Linked t f) (hn : t.previous? b = some a) (hb : b ∈ f p) :
    a ∈ f p := by
  obtain ⟨as, bs, hf⟩ := List.append_of_mem hb
  rw [(h.siblings hf).1] at hn
  simp [hf, List.mem_of_getLast? hn]

/-- **Neighbours share their parent.** -/
theorem parent_eq (h : Linked t f) (hn : t.next? a = some b) : t.parent? a = t.parent? b := by
  refine Option.ext fun p => ?_
  rw [h.parent, h.parent]
  exact ⟨h.mem_of_next hn, h.mem_of_previous (h.neighbours.mp hn)⟩

theorem congr (h : Linked t f) (hs : t.size ≤ t'.size)
    (hl : ∀ m, t'.parent? m = t.parent? m ∧ t'.first? m = t.first? m ∧ t'.last? m = t.last? m ∧
      t'.previous? m = t.previous? m ∧ t'.next? m = t.next? m) : Linked t' f where
  inside hm := ⟨Nat.lt_of_lt_of_le (h.inside hm).1 hs, Nat.lt_of_lt_of_le (h.inside hm).2 hs⟩
  parent {p m} := by rw [(hl m).1, h.parent]
  distinct := h.distinct
  first p := (hl p).2.1.trans (h.first p)
  last p := (hl p).2.2.1.trans (h.last p)
  siblings {p m as bs} hf := by
    rw [(hl m).2.2.2.1, (hl m).2.2.2.2]
    exact h.siblings hf
  neighbours {a b} := by rw [(hl a).2.2.2.2, (hl b).2.2.2.1, h.neighbours]

theorem createAt (h : Linked t f) (k : NodeKind) (position? : Option Position) :
    Linked (t.createAt k position?).2 f := h.congr (by simp) (links_createAt k position?)

theorem setKind (h : Linked t f) (n : NodeId) (k : NodeKind) : Linked (t.setKind n k) f :=
  h.congr (by simp [Tree.setKind]) (links_setKind k)

/-! ### Removal -/

theorem split_without {xs ys : List NodeId} (h : as ++ bs = xs ++ m :: ys) :
    (∃ cs, as = xs ++ m :: cs ∧ ys = cs ++ bs) ∨
      ∃ cs, bs = cs ++ m :: ys ∧ xs = as ++ cs := by
  rcases List.append_eq_append_iff.mp h with ⟨cs, hx, hb⟩ | ⟨cs, ha, hy⟩
  · exact .inr ⟨cs, hb, hx⟩
  · cases cs with
    | nil => exact .inr ⟨[], by simpa using hy.symm, by simpa using ha.symm⟩
    | cons c cs =>
      obtain ⟨rfl, rfl⟩ := List.cons.inj hy
      exact .inl ⟨cs, ha, rfl⟩

theorem ne_head? (h : m ∉ as) : as.head? ≠ some m := fun hc => h (List.mem_of_mem_head? hc)

theorem ne_getLast? (h : m ∉ as) : as.getLast? ≠ some m := fun hc => h (List.mem_of_getLast? hc)

theorem head?_eq_some_iff (h : (as ++ m :: bs).Nodup) :
    (as ++ m :: bs).head? = some m ↔ as = [] := by
  cases as with
  | nil => simp
  | cons a as =>
    rw [List.cons_append, List.nodup_cons] at h
    simpa using fun ha => h.1 (by simp [ha])

theorem getLast?_eq_some_iff (h : (as ++ m :: bs).Nodup) :
    (as ++ m :: bs).getLast? = some m ↔ bs = [] := by
  rcases List.eq_nil_or_concat bs with rfl | ⟨bs, b, rfl⟩
  · simp
  · rw [List.concat_eq_append, ← List.cons_append, ← List.append_assoc] at h ⊢
    have hb : b ≠ m := fun hb => (List.nodup_append.mp h).2.2 m (by simp) b (by simp) hb.symm
    rw [List.getLast?_concat]
    simp [hb]

theorem erase_split (h : Linked t f) (hf : f p = as ++ n :: bs) : (f p).erase n = as ++ bs := by
  have hd := h.distinct p
  rw [hf, List.nodup_middle, List.nodup_cons, List.mem_append, not_or] at hd
  rw [hf, List.erase_append_right _ hd.1.1, List.erase_cons_head]

theorem siblings_without (h : Linked t f) (hu : Unlinked t t' n) (hf : f p = as ++ n :: bs)
    {xs ys : List NodeId} (hx : as ++ bs = xs ++ m :: ys) :
    t'.previous? m = xs.getLast? ∧ t'.next? m = ys.head? := by
  obtain ⟨hp, hn⟩ := h.siblings hf
  have hd := h.distinct p
  rw [hf, List.nodup_middle, List.nodup_cons] at hd
  have hmn : m ≠ n := by
    rintro rfl
    exact hd.1 (by simp [hx])
  have hd := hd.2
  rw [hu.previous, hu.next, if_neg hmn, if_neg hmn, hp, hn]
  rcases split_without hx with ⟨cs, rfl, rfl⟩ | ⟨cs, rfl, rfl⟩
  · obtain ⟨hp, hx⟩ := h.siblings (hf.trans (List.append_assoc ..))
    have hb : m ∉ bs := List.disjoint_of_nodup_append hd (by simp)
    simp only [hp, hx, if_neg (ne_head? hb), getLast?_eq_some_iff hd.of_append_left,
      true_and]
    cases cs <;> simp
  · have hc : f p = (as ++ n :: cs) ++ m :: ys := by simp [hf]
    obtain ⟨hp, hx⟩ := h.siblings hc
    have ha : m ∉ as := fun ha => List.disjoint_of_nodup_append hd ha (by simp)
    simp only [hp, hx, if_neg (ne_getLast? ha), head?_eq_some_iff hd.of_append_right,
      and_true]
    cases cs <;> simp [List.getLast?_append, List.getLast?_cons_cons]

theorem unlinked_remove (h : Linked t f) (n : NodeId) : Unlinked t (t.remove n) n :=
  Tree.unlinked_remove (fun _ hp => (h.inside (h.parent.mp hp)).1)
    (fun _ ha => lt_size_of_next (h.neighbours.mpr ha))
    fun _ hb => lt_size_of_previous (h.neighbours.mp hb)

theorem unlinked (h : Linked t f) (hu : Unlinked t t' n) : Linked t' fun q => (f q).erase n where
  inside hm := hu.size ▸ h.inside (List.mem_of_mem_erase hm)
  parent {q m} := by
    rw [hu.parent, (h.distinct q).mem_erase_iff, ← h.parent]
    split <;> simp [*]
  distinct q := (h.distinct q).erase n
  first q := by
    rw [hu.first]
    by_cases hq : n ∈ f q
    · obtain ⟨as, bs, hf⟩ := List.append_of_mem hq
      rw [h.parent.mpr hq, h.erase_split hf, h.first, (h.siblings hf).1, (h.siblings hf).2, hf]
      cases as <;> simp
    · rw [if_neg fun hc => hq (h.parent.mp hc.2), List.erase_of_not_mem hq, h.first]
  last q := by
    rw [hu.last]
    by_cases hq : n ∈ f q
    · obtain ⟨as, bs, hf⟩ := List.append_of_mem hq
      rw [h.parent.mpr hq, h.erase_split hf, h.last, (h.siblings hf).1, (h.siblings hf).2, hf]
      cases bs <;> simp
    · rw [if_neg fun hc => hq (h.parent.mp hc.2), List.erase_of_not_mem hq, h.last]
  siblings {q m xs ys} hx := by
    by_cases hq : n ∈ f q
    · obtain ⟨as, bs, hf⟩ := List.append_of_mem hq
      rw [h.erase_split hf] at hx
      exact h.siblings_without hu hf hx
    · rw [List.erase_of_not_mem hq] at hx
      have hm : m ∈ f q := by simp [hx]
      have hmn : m ≠ n := fun hc => hq (hc ▸ hm)
      rw [hu.previous, hu.next, if_neg hmn, if_neg hmn,
        if_neg fun hc => hq (h.mem_of_previous (h.neighbours.mp hc) hm),
        if_neg fun hc => hq (h.mem_of_next (h.neighbours.mpr hc) hm)]
      exact h.siblings hx
  neighbours {a b} := by
    have hn := h.neighbours (a := a) (b := n)
    have hn' := h.neighbours (a := n) (b := b)
    have hab := h.neighbours (a := a) (b := b)
    rw [hu.previous, hu.next]
    grind

/-- **Taking out a node takes it out of all lists.** -/
theorem remove (h : Linked t f) (n : NodeId) : Linked (t.remove n) fun q => (f q).erase n :=
  h.unlinked (h.unlinked_remove n)

/-! ### Insertion -/

/-- The neighbours of a node without links that is put between two neighbours. -/
theorem neighbours_inserted (h : Linked t f) {p? a? b? : Option NodeId}
    (hi : Inserted t t' n p? a? b?) (hn : t.previous? n = none) (hn' : t.next? n = none)
    (ha : ∀ x, a? = some x → x ≠ n ∧ t.next? x = b?)
    (hb : ∀ y, b? = some y → y ≠ n ∧ t.previous? y = a?) {x y : NodeId} :
    t'.next? x = some y ↔ t'.previous? y = some x := by
  have hxy := h.neighbours (a := x) (b := y)
  have hx := ha x
  have hy := hb y
  rw [hi.previous, hi.next]
  grind

/-- A node without a parent is put between nodes without a parent. -/
theorem inserted_loose (h : Linked t f) {a? b? : Option NodeId} (hi : Inserted t t' n none a? b?)
    (hp : t.parent? n = none) (hn : t.previous? n = none) (hn' : t.next? n = none)
    (ha : ∀ x, a? = some x → x ≠ n ∧ t.next? x = b? ∧ t.parent? x = none)
    (hb : ∀ y, b? = some y → y ≠ n ∧ t.previous? y = a? ∧ t.parent? y = none) :
    Linked t' f where
  inside hm := hi.size ▸ h.inside hm
  parent {q m} := by
    rw [hi.parent]
    split
    next hm => simp [hm, h.not_mem hp q]
    next => exact h.parent
  distinct := h.distinct
  first q := by rw [hi.first, if_neg (by simp), h.first]
  last q := by rw [hi.last, if_neg (by simp), h.last]
  siblings {q m xs ys} hx := by
    have hm : m ∈ f q := by simp [hx]
    have hmn : m ≠ n := fun hc => h.not_mem hp q (hc ▸ hm)
    rw [hi.previous, hi.next, if_neg hmn, if_neg hmn,
      if_neg fun hc => h.not_mem (hb m hc).2.2 q hm, if_neg fun hc => h.not_mem (ha m hc).2.2 q hm]
    exact h.siblings hx
  neighbours := h.neighbours_inserted hi hn hn' (fun x hx => ⟨(ha x hx).1, (ha x hx).2.1⟩)
    fun y hy => ⟨(hb y hy).1, (hb y hy).2.1⟩

theorem split_with {xs ys : List NodeId} (h : as ++ n :: bs = xs ++ m :: ys) :
    (m = n ∧ xs = as ∧ ys = bs) ∨ (∃ cs, as = xs ++ m :: cs ∧ ys = cs ++ n :: bs) ∨
      ∃ cs, bs = cs ++ m :: ys ∧ xs = as ++ n :: cs := by
  rcases split_without h with ⟨cs, ha, hy⟩ | ⟨cs, hb, hx⟩
  · exact .inr (.inl ⟨cs, ha, hy⟩)
  · cases cs with
    | nil =>
      obtain ⟨rfl, rfl⟩ := List.cons.inj hb
      exact .inl ⟨rfl, by simpa using hx, rfl⟩
    | cons c cs =>
      obtain ⟨rfl, rfl⟩ := List.cons.inj hb
      exact .inr (.inr ⟨cs, rfl, hx⟩)

theorem siblings_with (h : Linked t f) (hi : Inserted t t' n (some p) as.getLast? bs.head?)
    (hf : f p = as ++ bs) (hn : n ∉ f p) {xs ys : List NodeId}
    (hx : as ++ n :: bs = xs ++ m :: ys) :
    t'.previous? m = xs.getLast? ∧ t'.next? m = ys.head? := by
  have hd : (as ++ bs).Nodup := hf ▸ h.distinct p
  rw [hf, List.mem_append, not_or] at hn
  rw [hi.previous, hi.next]
  rcases split_with hx with ⟨rfl, rfl, rfl⟩ | ⟨cs, rfl, rfl⟩ | ⟨cs, rfl, rfl⟩
  · simp
  · obtain ⟨hp, hx⟩ := h.siblings (hf.trans (List.append_assoc ..))
    have hb : m ∉ bs := List.disjoint_of_nodup_append hd (by simp)
    have hm : m ≠ n := fun hc => hn.1 (by simp [hc])
    simp only [hp, hx, if_neg hm, if_neg (ne_head? hb), getLast?_eq_some_iff hd.of_append_left,
      true_and]
    cases cs <;> simp
  · have hc : f p = (as ++ cs) ++ m :: ys := by simp [hf]
    obtain ⟨hp, hx⟩ := h.siblings hc
    have ha : m ∉ as := fun ha => List.disjoint_of_nodup_append hd ha (by simp)
    have hm : m ≠ n := fun hc => hn.2 (by simp [hc])
    simp only [hp, hx, if_neg hm, if_neg (ne_getLast? ha), head?_eq_some_iff hd.of_append_right,
      and_true]
    cases cs <;> simp [List.getLast?_append, List.getLast?_cons_cons]

/-- A node without links is put into a list if its parent and its neighbours learn of it. -/
theorem inserted (h : Linked t f) (hi : Inserted t t' n (some p) as.getLast? bs.head?)
    (hf : f p = as ++ bs) (hplt : p < t.size) (hlt : n < t.size) (hp : t.parent? n = none)
    (hn : t.previous? n = none) (hn' : t.next? n = none) :
    Linked t' (Function.update f p (as ++ n :: bs)) := by
  have hnp := h.not_mem hp
  have hd : (as ++ bs).Nodup := hf ▸ h.distinct p
  have hmem {q m} :
      m ∈ Function.update f p (as ++ n :: bs) q ↔ m ∈ f q ∨ m = n ∧ q = p := by
    by_cases hq : q = p
    · subst hq
      rw [Function.update_self, hf, List.mem_append, List.mem_append, List.mem_cons]
      tauto
    · simp [hq]
  refine ⟨?_, ?_, ?_, ?_, ?_, ?_, ?_⟩
  · intro q m hm
    rw [hi.size]
    rcases hmem.mp hm with hm | ⟨rfl, rfl⟩
    · exact h.inside hm
    · exact ⟨hplt, hlt⟩
  · intro q m
    rw [hi.parent, hmem]
    split
    next hm =>
      subst hm
      simp [hnp q, eq_comm]
    next hm => simp [h.parent, hm]
  · intro q
    by_cases hq : q = p
    · subst hq
      rw [Function.update_self, List.nodup_middle, List.nodup_cons]
      exact ⟨hf ▸ hnp q, hd⟩
    · rw [Function.update_of_ne hq]
      exact h.distinct q
  · intro q
    rw [hi.first]
    by_cases hq : q = p
    · subst hq
      rw [h.first, hf, Function.update_self]
      cases as <;> simp
    · rw [if_neg fun hc => hq (Option.some.inj hc.2).symm, Function.update_of_ne hq, h.first]
  · intro q
    rw [hi.last]
    by_cases hq : q = p
    · subst hq
      rw [h.last, hf, Function.update_self]
      cases bs <;> simp [List.getLast?_cons_cons]
    · rw [if_neg fun hc => hq (Option.some.inj hc.2).symm, Function.update_of_ne hq, h.last]
  · intro q m xs ys hx
    by_cases hq : q = p
    · subst hq
      rw [Function.update_self] at hx
      exact h.siblings_with hi hf (hnp q) hx
    · rw [Function.update_of_ne hq] at hx
      have hm : m ≠ n := fun hc => hnp q (by simp [hx, hc])
      have hmp : m ∉ f p := fun hc => hq (h.parent_unique (by simp [hx]) hc)
      simp only [hf, List.mem_append, not_or] at hmp
      rw [hi.previous, hi.next, if_neg hm, if_neg hm, if_neg (ne_head? hmp.2),
        if_neg (ne_getLast? hmp.1)]
      exact h.siblings hx
  · have member {x : NodeId} (hx : x ∈ f p) : x ≠ n := fun hc => hnp p (hc ▸ hx)
    intro u v
    refine h.neighbours_inserted hi hn hn' (fun x hx => ?_) fun y hy => ?_
    · obtain ⟨xs, rfl⟩ := List.getLast?_eq_some_iff.mp hx
      exact ⟨member (by simp [hf]), (h.siblings (hf.trans (List.append_assoc ..))).2⟩
    · obtain ⟨ys, rfl⟩ := List.head?_eq_some_iff.mp hy
      exact ⟨member (by simp [hf]), (h.siblings hf).1⟩

/-! ### Edits -/

theorem inserted_addChild (h : Linked t f) (hp : p < t.size) (hn : n < t.size) :
    Inserted (t.remove n) (t.addChild p n) n (some p) ((t.remove n).last? p) none :=
  Tree.inserted_addChild hp hn fun x hx => by
    rw [(h.remove n).last] at hx
    have hx := List.mem_of_getLast? hx
    exact ⟨(h.inside (List.mem_of_mem_erase hx)).2, ((h.distinct p).mem_erase_iff.mp hx).1⟩

theorem ne_of_previous (h : Linked t f) {x : NodeId} (hx : (t.remove n).previous? a = some x) :
    x ≠ n := by
  rintro rfl
  have hnext := (h.remove x).neighbours.mpr hx
  rw [(h.unlinked_remove x).next, if_pos rfl] at hnext
  cases hnext

theorem inserted_insertBefore (h : Linked t f) (hne : a ≠ n) (ha : a < t.size) (hn : n < t.size) :
    Inserted (t.remove n) (t.insertBefore a n) n ((t.remove n).parent? a)
      ((t.remove n).previous? a) (some a) := by
  have hsize := (h.unlinked_remove n).size
  refine Tree.inserted_insertBefore hne hn ha (fun p hp => ?_) fun x hx => ⟨?_, h.ne_of_previous hx⟩
  · exact hsize ▸ ((h.remove n).inside ((h.remove n).parent.mp hp)).1
  · exact hsize ▸ lt_size_of_next ((h.remove n).neighbours.mpr hx)

/-- **A new last child.** -/
theorem addChild (h : Linked t f) (hp : p < t.size) (hn : n < t.size) :
    Linked (t.addChild p n) (withLast f p n) := by
  have hu := h.unlinked_remove n
  have h₁ := h.unlinked hu
  have hi := h.inserted_addChild hp hn
  rw [h₁.last p] at hi
  rw [← hu.size] at hp hn
  exact h₁.inserted hi (List.append_nil _).symm hp hn (by rw [hu.parent, if_pos rfl])
    (by rw [hu.previous, if_pos rfl]) (by rw [hu.next, if_pos rfl])

/-- **A new sibling before a node**, which may be one without a parent. -/
theorem insertBefore (h : Linked t f) (hne : a ≠ n) (ha : a < t.size) (hn : n < t.size) :
    Linked (t.insertBefore a n) fun q => inPlaceOf a [n, a] ((f q).erase n) := by
  have hu := h.unlinked_remove n
  have h₁ := h.unlinked hu
  have hi := h.inserted_insertBefore hne ha hn
  have hp : (t.remove n).parent? n = none := by rw [hu.parent, if_pos rfl]
  have hx : (t.remove n).previous? n = none := by rw [hu.previous, if_pos rfl]
  have hy : (t.remove n).next? n = none := by rw [hu.next, if_pos rfl]
  rw [← hu.size] at hn
  cases hparent : (t.remove n).parent? a with
  | none =>
    rw [hparent] at hi
    have hl := h₁.inserted_loose hi hp hx hy
      (fun x hx => by
        have hnext := h₁.neighbours.mpr hx
        exact ⟨h.ne_of_previous hx, hnext, (h₁.parent_eq hnext).trans hparent⟩)
      fun y hy => by
        obtain rfl := Option.some.inj hy
        exact ⟨hne, rfl, hparent⟩
    convert hl using 2
    exact inPlaceOf_of_not_mem (h₁.not_mem hparent _)
  | some p =>
    have hmem := h₁.parent.mp hparent
    obtain ⟨as, bs, hf⟩ := List.append_of_mem hmem
    rw [hparent, (h₁.siblings hf).1, ← List.head?_cons (l := bs)] at hi
    have hl := h₁.inserted hi hf (h₁.inside hmem).1 hn hp hx hy
    convert hl using 1
    funext q
    by_cases hq : q = p
    · subst hq
      rw [Function.update_self, hf, inPlaceOf_split (hf ▸ h₁.distinct q), List.append_assoc]
      rfl
    · rw [Function.update_of_ne hq]
      exact inPlaceOf_of_not_mem fun hc => hq (h₁.parent_unique hc hmem)

/-- **A node in the place of another one**, which is taken out. -/
theorem replace (h : Linked t f) (hne : a ≠ n) (ha : a < t.size) (hn : n < t.size) :
    Linked (t.replace a n) fun q => inPlaceOf a [n] ((f q).erase n) := by
  have hsize := ((Relinked.refl t).remove n).size
  have h₁ := (h.remove n).insertBefore hne (hsize ▸ ha) (hsize ▸ hn)
  have herase (q : NodeId) : ((f q).erase n).erase n = (f q).erase n :=
    List.erase_of_not_mem (h.distinct q).not_mem_erase
  simp only [herase] at h₁
  rw [Tree.replace, if_neg hne]
  convert h₁.remove a using 2 with q
  rw [erase_eq_inPlaceOf (h₁.distinct q), inPlaceOf_inPlaceOf]
  simp [Ne.symm hne]

theorem insertAll (h : Linked t f) {s : NodeId} {cs : List NodeId} (hs : f s = cs) (hn : n ∉ cs)
    (hlt : n < t.size) :
    Linked (cs.foldl (fun t c => t.insertBefore n c) t) fun q =>
      if q = s then [] else inPlaceOf n (cs ++ [n]) (f q) := by
  induction cs generalizing t f with
  | nil =>
    rw [List.foldl_nil]
    convert h using 2 with q
    split
    next hq => rw [hq, hs]
    next => exact inPlaceOf_self
  | cons c cs ih =>
    rw [List.mem_cons, not_or] at hn
    have hc : c ∈ f s := by simp [hs]
    have h₁ := h.insertBefore hn.1 hlt (h.inside hc).2
    have hsize := ((Relinked.refl t).insertBefore n c).size
    have h₂ := ih h₁ (by rw [hs, List.erase_cons_head, inPlaceOf_of_not_mem hn.2]) hn.2
      (hsize ▸ hlt)
    rw [List.foldl_cons]
    convert h₂ using 2 with q
    split
    · rfl
    next hq =>
      rw [List.erase_of_not_mem fun hm => hq (h.parent_unique hm hc), inPlaceOf_inPlaceOf]
      simp [Ne.symm hn.1]

/-- **The children of a node in the place of another one**, which is taken out. -/
theorem splice (h : Linked t f) {s : NodeId} (hn : n ∉ f s) (hlt : n < t.size) :
    Linked (t.splice n s) fun q => if q = s then [] else inPlaceOf n (f s) (f q) := by
  have h₁ := h.insertAll rfl hn hlt
  rw [Tree.splice, h.children]
  convert h₁.remove n using 2 with q
  rw [erase_eq_inPlaceOf (h₁.distinct q)]
  split
  · rfl
  · rw [inPlaceOf_inPlaceOf, inPlaceOf_append, inPlaceOf_of_not_mem hn]
    simp

end Linked

end Codegen.Tree
