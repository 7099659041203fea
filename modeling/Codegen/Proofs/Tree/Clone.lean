import Codegen.Proofs.Tree.Ancestors
import Mathlib.Data.List.Forall2

/-!
# Copies

A copy of a node and of all below it consists of new nodes; what was there stays as it is.

* `Tree.Copied`: **a node and all below it, copied**;
* `Tree.Kept`, `Tree.Grown`: a tree with more nodes;
* `Tree.Alone`, `node_addChild`: which nodes an edit leaves as they are;
* `Tree.copies`, `Linked.clone`: **a copy leaves what was there as it is**;
* `Tree.Paired`, `Copied.isomorphic`: **a copy is isomorphic to what was copied.**
-/

namespace Codegen.Tree

open Relation

variable {t t' t₀ t₁ t₂ : Tree} {f f' f₁ f₂ : NodeId → List NodeId} {b b' k : Nat}
  {c m n p q : Nat} {ns : List NodeId}

/-- **A node of a tree and all below it, copied into another tree.** All nodes of the copy are new,
and there are not that many levels. -/
def Copied (t t' : Tree) (new : NodeId) : Nat → NodeId → NodeId → Prop
  | 0, _, _ => False
  | k + 1, n, c => (new ≤ c ∧ c < t'.size) ∧ t'.kind c = t.kind n ∧
      t'.position? c = t.position? n ∧
      List.Forall₂ (Copied t t' new k) (t.children n) (t'.children c)

theorem Copied.made (h : Copied t t' b k n c) : b ≤ c ∧ c < t'.size := by
  cases k with
  | zero => exact h.elim
  | succ k => exact h.1

theorem Copied.made_all {cs : List NodeId} (h : List.Forall₂ (Copied t t' b k) ns cs) :
    ∀ c ∈ cs, b ≤ c := by
  induction h with
  | nil => simp
  | cons hc _ ih =>
    intro c hm
    rcases List.mem_cons.mp hm with rfl | hm
    · exact hc.made.1
    · exact ih c hm

theorem Copied.congr (hb : b' ≤ b) (hsize : t₁.size ≤ t₂.size)
    (hsame : ∀ m, b ≤ m → m < t₁.size → t₂.kind m = t₁.kind m ∧
      t₂.position? m = t₁.position? m ∧ t₂.children m = t₁.children m) :
    Copied t t₁ b k n c → Copied t t₂ b' k n c := by
  induction k generalizing n c with
  | zero => exact id
  | succ k ih =>
    rintro ⟨hc, hk, hp, hch⟩
    obtain ⟨hk', hp', hch'⟩ := hsame c hc.1 hc.2
    refine ⟨⟨hb.trans hc.1, hc.2.trans_le hsize⟩, hk'.trans hk, hp'.trans hp, ?_⟩
    rw [hch']
    exact hch.imp fun _ _ => ih

/-- The nodes of a tree are nodes of another one, with the same children. -/
structure Kept (t t' : Tree) : Prop where
  size : t.size ≤ t'.size
  kind : ∀ m < t.size, t'.kind m = t.kind m
  position : ∀ m < t.size, t'.position? m = t.position? m
  children : ∀ m < t.size, t'.children m = t.children m

theorem Kept.refl (t : Tree) : Kept t t :=
  ⟨Nat.le_refl _, fun _ _ => rfl, fun _ _ => rfl, fun _ _ => rfl⟩

/-- New nodes, while the old ones have the given children: new nodes have only newer children. -/
structure Grown (t : Tree) (g : NodeId → List NodeId) (t' : Tree) (f' : NodeId → List NodeId) :
    Prop where
  linked : Linked t' f'
  size : t.size ≤ t'.size
  kind : ∀ m < t.size, t'.kind m = t.kind m
  position : ∀ m < t.size, t'.position? m = t.position? m
  lists : ∀ q < t.size, f' q = g q
  newer : ∀ q : Nat, t.size ≤ q → ∀ m : Nat, m ∈ f' q → q < m

namespace Grown

variable {g g₁ g' : NodeId → List NodeId}

theorem relinked (h : Linked t' f') (hr : Relinked t t') : Grown t f' t' f' where
  linked := h
  size := hr.size.ge
  kind m _ := hr.kind m
  position m _ := hr.position m
  lists _ _ := rfl
  newer q hq m hm := by
    rw [h.eq_nil (hr.size.le.trans hq)] at hm
    cases hm

theorem trans (h : Grown t g t₁ f₁) (h' : Grown t₁ g₁ t₂ f₂) (hold : ∀ q < t.size, g₁ q = g' q)
    (hnew : ∀ q : Nat, t.size ≤ q → q < t₁.size → ∀ m : Nat, m ∈ g₁ q → q < m) :
    Grown t g' t₂ f₂ where
  linked := h'.linked
  size := h.size.trans h'.size
  kind m hm := (h'.kind m (hm.trans_le h.size)).trans (h.kind m hm)
  position m hm := (h'.position m (hm.trans_le h.size)).trans (h.position m hm)
  lists q hq := (h'.lists q (hq.trans_le h.size)).trans (hold q hq)
  newer q hq m hm := by
    by_cases hlt : q < t₁.size
    · rw [h'.lists q hlt] at hm
      exact hnew q hq hlt m hm
    · exact h'.newer q (Nat.not_lt.mp hlt) m hm

theorem kept (h : Grown t g t' f') (hl : Linked t f) (hk : Kept t₀ t)
    (hg : ∀ q < t₀.size, g q = f q) : Kept t₀ t' where
  size := hk.size.trans h.size
  kind m hm := (h.kind m (hm.trans_le hk.size)).trans (hk.kind m hm)
  position m hm := (h.position m (hm.trans_le hk.size)).trans (hk.position m hm)
  children m hm := by
    rw [h.linked.children, h.lists m (hm.trans_le hk.size), hg m hm, ← hl.children,
      hk.children m hm]

theorem not_mem (h : Grown t f t' f') (hl : Linked t f) (q : Nat) : t.size ∉ f' q := by
  intro hm
  by_cases hq : q < t.size
  · rw [h.lists q hq] at hm
    exact Nat.lt_irrefl _ (hl.inside hm).2
  · exact hq (h.newer q (Nat.not_lt.mp hq) _ hm)

theorem copied (h : Grown t₁ g t₂ f₂) (hl : Linked t₁ f₁)
    (hg : ∀ q, b ≤ q → q < t₁.size → g q = f₁ q) (hc : Copied t t₁ b k n c) :
    Copied t t₂ b k n c :=
  hc.congr (Nat.le_refl b) h.size fun m hb hm => ⟨h.kind m hm, h.position m hm, by
    rw [h.linked.children, hl.children, h.lists m hm, hg m hb hm]⟩

/-- **New nodes make no cycle.** -/
theorem acyclic (h : Grown t f t' f') (hl : Linked t f) (ha : t.Acyclic) : t'.Acyclic := by
  have step {c q : Nat} (hc : t'.Under c q) : t.Under c q ∨ t.size ≤ q ∧ q < c := by
    rw [h.linked.under] at hc
    by_cases hq : q < t.size
    · exact .inl (hl.under.mpr (h.lists q hq ▸ hc))
    · exact .inr ⟨Nat.not_lt.mp hq, h.newer q (Nat.not_lt.mp hq) c hc⟩
  have way {a b : Nat} (hab : TransGen t'.Under a b) :
      TransGen t.Under a b ∨ t.size ≤ b ∧ b < a := by
    induction hab with
    | single hb => exact (step hb).imp_left .single
    | @tail b c hab hc ih =>
      rcases step hc with hbc | ⟨hc, hcb⟩
      · have hlt : b < t.size := (hl.inside (hl.under.mp hbc)).2
        exact .inl ((ih.resolve_right fun hb => by omega).tail hbc)
      · have hb : ¬ TransGen t.Under a b := fun hb => by
          obtain ⟨x, -, hx⟩ := TransGen.tail'_iff.mp hb
          have : b < t.size := hl.under_lt hx
          omega
        have := ih.resolve_left hb
        exact .inr ⟨hc, by omega⟩
  exact fun n hn => (way hn).elim (ha n) fun hn => Nat.lt_irrefl _ hn.2

end Grown

/-! ## Nodes that stay as they are -/

/-- A node without a parent and without neighbours. -/
def Alone (t : Tree) (n : NodeId) : Prop :=
  t.parent? n = none ∧ t.previous? n = none ∧ t.next? n = none

theorem Alone.congr (h : t.Alone n) (hn : t'.node m = t.node n) : t'.Alone m := by
  rw [Alone, parent?, previous?, next?, hn]
  exact h

theorem node_remove (h : t.Alone n) : (t.remove n).node m = t.node m := by
  obtain ⟨hp, ha, hb⟩ := h
  rw [parent?] at hp
  rw [previous?] at ha
  rw [next?] at hb
  simp only [Tree.remove, hp, ha, hb, update?, node_update]
  split
  next hm =>
    obtain ⟨rfl, -⟩ := hm
    cases hx : t.node m
    simp_all
  next => rfl

theorem last_remove (h : t.Alone n) : (t.remove n).last? p = t.last? p := by
  rw [last?, last?, node_remove h]

theorem node_addChild (h : t.Alone n) (hn : m ≠ n) (hp : m ≠ p) (hl : t.last? p ≠ some m) :
    (t.addChild p n).node m = t.node m := by
  simp only [Tree.addChild, last_remove h]
  cases hx : t.last? p with
  | none => simp [node_update, node_remove h, hn, hp]
  | some l =>
    have hml : m ≠ l := fun hc => hl (hc ▸ hx)
    simp [node_update, node_remove h, hn, hp, hml]

theorem Alone.addChild (hp : t.Alone p) (h : t.Alone n) (hn : p ≠ n) (hl : t.last? p ≠ some p) :
    (t.addChild p n).Alone p := by
  simp only [Alone, parent?, previous?, next?] at hp ⊢
  simp only [Tree.addChild, last_remove h]
  cases hx : t.last? p with
  | none =>
    simp only [node_update, size_update, node_remove h]
    grind
  | some l =>
    have hpl : p ≠ l := fun hc => hl (hc ▸ hx)
    simp only [node_update, size_update, node_remove h]
    grind

/-! ## Copying -/

/-- To that depth, nodes of a tree are copied into any tree that keeps them. The copy is alone, and
all other nodes stay as they are. -/
def Copies (t₀ : Tree) (fuel : Nat) : Prop :=
  ∀ {t f n}, Linked t f → Kept t₀ t → n < t₀.size → t₀.Shallow fuel n →
    ∃ t' f', t.cloneTo fuel n = (t.size, t') ∧ Grown t f t' f' ∧
      Copied t₀ t' t.size fuel n t.size ∧ t'.Alone t.size ∧ ∀ m < t.size, t'.node m = t.node m

/-- A node is copied, and the copy becomes the last child of a new node. -/
theorem Copies.child (h : Copies t₀ k) (hl : Linked t f) (hk : Kept t₀ t) (hp : p < t.size)
    (hn : n < t₀.size) (hs : t₀.Shallow k n) (ha : t.Alone p) (hlater : ∀ l ∈ f p, p < l) :
    ∃ t₁ f₂, t.cloneTo k n = (t.size, t₁) ∧
      Grown t (Function.update f p (f p ++ [t.size])) (t₁.addChild p t.size) f₂ ∧
      Copied t₀ (t₁.addChild p t.size) t.size k n t.size ∧ (t₁.addChild p t.size).Alone p ∧
      ∀ m < p, (t₁.addChild p t.size).node m = t.node m := by
  obtain ⟨t₁, f₁, hclone, hg, hcopy, halone, hsame⟩ := h hl hk hn hs
  have hl₂ := hg.linked.addChild (hp.trans_le hg.size) hcopy.made.2
  have hrel := (Relinked.refl t₁).addChild p t.size
  have hlast {m : NodeId} (hm : m ≤ p) : t₁.last? p ≠ some m := fun hc => by
    rw [last?, hsame p hp, ← last?, hl.last] at hc
    exact absurd (hlater m (List.mem_of_getLast? hc)) (Nat.not_lt.mpr hm)
  have herase (q : NodeId) : (f₁ q).erase t.size = f₁ q :=
    List.erase_of_not_mem (hg.not_mem hl q)
  simp only [withLast, herase] at hl₂
  rw [hg.lists p hp] at hl₂
  -- the nodes of the copy are newer than the node that it is put below
  have hne {q : Nat} (hq : t.size ≤ q) : q ≠ p := (hp.trans_le hq).ne'
  have hg₂ : Grown t₁ (Function.update f₁ p (f p ++ [t.size])) (t₁.addChild p t.size)
      (Function.update f₁ p (f p ++ [t.size])) := .relinked hl₂ hrel
  refine ⟨t₁, _, hclone, hg.trans hg₂ (fun q hq => ?_) fun q hq _ m hm => ?_,
    hg₂.copied hg.linked (fun q hq _ => Function.update_of_ne (hne hq) ..) hcopy,
    (ha.congr (hsame p hp)).addChild halone hp.ne (hlast (Nat.le_refl p)), fun m hm => ?_⟩
  · by_cases hqp : q = p
    · simp [hqp]
    · rw [Function.update_of_ne hqp, Function.update_of_ne hqp, hg.lists q hq]
  · rw [Function.update_of_ne (hne hq)] at hm
    exact hg.newer q hq m hm
  · exact (node_addChild halone (hm.trans hp).ne hm.ne (hlast hm.le)).trans
      (hsame m (hm.trans hp))

/-- Nodes are copied one after the other, and each copy becomes the last child of a new node. -/
theorem Copies.children (h : Copies t₀ k) (hl : Linked t f) (hk : Kept t₀ t) (hp : p < t.size)
    (hnew : t₀.size ≤ p) (hns : ∀ n ∈ ns, n < t₀.size ∧ t₀.Shallow k n) (ha : t.Alone p)
    (hlater : ∀ l ∈ f p, p < l) :
    ∃ cs f', Grown t (Function.update f p (f p ++ cs)) (t.cloneChildren k p ns) f' ∧
      List.Forall₂ (Copied t₀ (t.cloneChildren k p ns) t.size k) ns cs ∧
      (t.cloneChildren k p ns).Alone p ∧ ∀ m < p, (t.cloneChildren k p ns).node m = t.node m := by
  induction ns generalizing t f with
  | nil =>
    rw [Tree.cloneChildren]
    refine ⟨[], f, ?_, .nil, ha, fun _ _ => rfl⟩
    rw [List.append_nil, Function.update_eq_self]
    exact .relinked hl (.refl t)
  | cons n ns ih =>
    obtain ⟨hn, hs⟩ := hns n List.mem_cons_self
    obtain ⟨t₁, f₂, hclone, hg, hcopy, ha₂, hsame⟩ := h.child hl hk hp hn hs ha hlater
    rw [Tree.cloneChildren, hclone]
    dsimp only
    generalize t₁.addChild p t.size = t₂ at hg hcopy ha₂ hsame ⊢
    have hfp : f₂ p = f p ++ [t.size] := (hg.lists p hp).trans (Function.update_self ..)
    have hk₂ := hg.kept hl hk fun q hq => Function.update_of_ne (hq.trans_le hnew).ne ..
    have hlater₂ : ∀ l ∈ f₂ p, p < l := fun l hm => by
      rw [hfp, List.mem_append, List.mem_singleton] at hm
      exact hm.elim (hlater l) fun hm => hm ▸ hp
    obtain ⟨cs, f', hg', hcs, ha', hsame'⟩ := ih hg.linked hk₂ (hp.trans_le hg.size)
      (fun m hm => hns m (List.mem_cons_of_mem _ hm)) ha₂ hlater₂
    have hne {q : Nat} (hq : t.size ≤ q) : q ≠ p := (hp.trans_le hq).ne'
    refine ⟨t.size :: cs, f', hg.trans hg' (fun q hq => ?_) fun q hq _ m hm => ?_, .cons ?_ ?_,
      ha', fun m hm => (hsame' m hm).trans (hsame m hm)⟩
    · by_cases hqp : q = p
      · simp [hqp, hfp]
      · rw [Function.update_of_ne hqp, hg.lists q hq, Function.update_of_ne hqp,
          Function.update_of_ne hqp]
    · rw [Function.update_of_ne (hne hq)] at hm
      exact hg.newer q hq m hm
    · exact hg'.copied hg.linked (fun q hq _ => Function.update_of_ne (hne hq) ..) hcopy
    · exact hcs.imp fun _ _ hc => hc.congr hg.size (Nat.le_refl _) fun m _ _ => ⟨rfl, rfl, rfl⟩

theorem cloneTo_succ (t : Tree) (fuel n : Nat) :
    t.cloneTo (fuel + 1) n = (t.size, (t.createAt (t.kind n) (t.position? n)).2.cloneChildren fuel
      t.size ((t.createAt (t.kind n) (t.position? n)).2.children n)) := by
  rw [Tree.cloneTo]
  rfl

theorem Linked.grown_createAt (h : Linked t f) (kind : NodeKind) (position? : Option Position) :
    Grown t f (t.createAt kind position?).2 f := by
  refine ⟨h.createAt kind position?, by simp, fun m hm => ?_, fun m hm => ?_, fun _ _ => rfl,
    fun q hq m hm => ?_⟩
  · rw [Tree.kind, node_createAt, if_neg hm.ne]
    rfl
  · rw [Tree.position?, node_createAt, if_neg hm.ne]
    rfl
  · rw [h.eq_nil hq] at hm
    cases hm

/-- **A node is copied to any depth that is enough.** -/
theorem copies (hl₀ : Linked t₀ f₁) (fuel : Nat) : Copies t₀ fuel := by
  induction fuel with
  | zero => exact fun _ _ _ hs => hs.elim
  | succ fuel ih =>
    intro t f n hl hk hn hs
    have hg₁ := hl.grown_createAt (t.kind n) (t.position? n)
    have hnode : (t.createAt (t.kind n) (t.position? n)).2.node t.size =
        .detached (t.kind n) (t.position? n) := by rw [node_createAt, if_pos rfl]
    have hold (m : NodeId) (hm : m < t.size) :
        (t.createAt (t.kind n) (t.position? n)).2.node m = t.node m := by
      rw [node_createAt, if_neg hm.ne]
    have hsize : (t.createAt (t.kind n) (t.position? n)).2.size = t.size + 1 := size_createAt
    rw [cloneTo_succ]
    generalize (t.createAt (t.kind n) (t.position? n)).2 = u at hg₁ hnode hold hsize
    have hk₁ := hg₁.kept hl hk fun _ _ => rfl
    have hlt : t.size < u.size := hsize ▸ Nat.lt_succ_self _
    rw [hk₁.children n hn]
    have halone : u.Alone t.size := by
      rw [Alone, parent?, previous?, next?, hnode]
      exact ⟨rfl, rfl, rfl⟩
    have hnil : f t.size = [] := hl.eq_nil (Nat.le_refl _)
    obtain ⟨cs, f', hg, hcs, ha, hsame⟩ := ih.children hg₁.linked hk₁ hlt hk.size
      (fun m hm => ⟨(hl₀.inside (hl₀.children n ▸ hm)).2, hs m hm⟩) halone (by simp [hnil])
    rw [hnil, List.nil_append] at hg
    refine ⟨_, f', rfl, hg₁.trans hg (fun q hq => Function.update_of_ne hq.ne ..) ?_, ?_, ha,
      fun m hm => (hsame m hm).trans (hold m hm)⟩
    · intro q hq hlt m hm
      obtain rfl : q = t.size := by omega
      rw [Function.update_self] at hm
      exact hlt.trans_le (Copied.made_all hcs m hm)
    · refine ⟨⟨Nat.le_refl _, hlt.trans_le hg.size⟩, ?_, ?_, ?_⟩
      · rw [hg.kind _ hlt, Tree.kind, hnode]
        exact hk.kind n hn
      · rw [hg.position _ hlt, Tree.position?, hnode]
        exact hk.position n hn
      · rw [hg.linked.children, hg.lists _ hlt, Function.update_self]
        exact hcs.imp fun _ _ hc => hc.congr hg₁.size (Nat.le_refl _) fun m _ _ =>
          ⟨rfl, rfl, rfl⟩

/-- **A copy of a node and of all below it.** -/
theorem Linked.clone (h : Linked t f) (ha : t.Acyclic) (hn : n < t.size) :
    ∃ t' f', t.clone n = (t.size, t') ∧ Grown t f t' f' ∧
      Copied t t' t.size (t.size + 1) n t.size ∧ t'.Alone t.size ∧
      ∀ m < t.size, t'.node m = t.node m :=
  copies h (t.size + 1) h (.refl t) hn (h.shallow ha n)

/-! ## The copy and what was copied -/

/-- A node and all nodes below it. -/
def inside (t : Tree) (n : NodeId) : Set NodeId := {m | ReflTransGen t.Under m n}

/-- **Nodes that are at the same place** below a node and below another one. -/
inductive Paired (t t' : Tree) (n c : NodeId) : NodeId → NodeId → Prop
  | root : Paired t t' n c n c
  | child {m d p q : NodeId} {i : Nat} (h : Paired t t' n c p q)
      (hm : (t.children p)[i]? = some m) (hd : (t'.children q)[i]? = some d) :
      Paired t t' n c m d

namespace Paired

variable {d e : NodeId}

theorem symm (h : Paired t t' n c m d) : Paired t' t c n d m := by
  induction h with
  | root => exact .root
  | child _ hm hd ih => exact .child ih hd hm

theorem mem_inside (h : Paired t t' n c m d) (hl : Linked t f) : m ∈ t.inside n := by
  induction h with
  | root => exact .refl
  | child _ hm _ ih =>
    rw [hl.children] at hm
    exact .head (hl.under.mpr (List.mem_of_getElem? hm)) ih

theorem ne_root (h : Paired t t' n c p q) (hl : Linked t f) (ha : t.Acyclic)
    (hm : m ∈ t.children p) : m ≠ n := by
  rintro rfl
  rw [hl.children] at hm
  exact ha m (.head' (hl.under.mpr hm) (h.mem_inside hl))

/-- **A node is at one place.** -/
theorem unique (h : Paired t t' n c m d) (he : Paired t t' n c m e) (hl : Linked t f)
    (ha : t.Acyclic) : d = e := by
  induction h generalizing e with
  | root =>
    cases he with
    | root => rfl
    | child hp hm _ => exact absurd rfl (hp.ne_root hl ha (List.mem_of_getElem? hm))
  | child hp hm hd ih =>
    cases he with
    | root => exact absurd rfl (hp.ne_root hl ha (List.mem_of_getElem? hm))
    | child hp' hm' he =>
      rw [hl.children] at hm hm'
      obtain rfl := hl.parent_unique (List.mem_of_getElem? hm) (List.mem_of_getElem? hm')
      obtain rfl := ih hp'
      obtain ⟨hi, hget⟩ := List.getElem?_eq_some_iff.mp hm
      obtain ⟨hi', hget'⟩ := List.getElem?_eq_some_iff.mp hm'
      obtain rfl := (hl.distinct _).getElem_inj_iff.mp (hget.trans hget'.symm)
      exact Option.some.inj (hd.symm.trans he)

/-- Each node that is inside of one has its place in the other one, if they have as many children
wherever they are at the same place. -/
theorem exists_of_inside (hl : Linked t f)
    (hlen : ∀ p q, Paired t t' n c p q → (t.children p).length = (t'.children q).length)
    (h : m ∈ t.inside n) : ∃ d, Paired t t' n c m d := by
  induction h using ReflTransGen.head_induction_on with
  | refl => exact ⟨c, .root⟩
  | head hm _ ih =>
    obtain ⟨q, hq⟩ := ih
    rw [hl.under, ← hl.children] at hm
    obtain ⟨i, hi, rfl⟩ := List.getElem_of_mem hm
    exact ⟨_, hq.child (List.getElem?_eq_getElem hi)
      (List.getElem?_eq_getElem (hlen _ _ hq ▸ hi))⟩

theorem copied (h : Paired t t' n c m d) (hc : Copied t t' b k n c) :
    ∃ k, Copied t t' b k m d := by
  induction h with
  | root => exact ⟨k, hc⟩
  | child _ hm hd ih =>
    obtain ⟨k, hc⟩ := ih
    cases k with
    | zero => exact hc.elim
    | succ k =>
      obtain ⟨-, -, -, hch⟩ := hc
      obtain ⟨him, rfl⟩ := List.getElem?_eq_some_iff.mp hm
      obtain ⟨hid, rfl⟩ := List.getElem?_eq_some_iff.mp hd
      exact ⟨k, (List.forall₂_iff_get.mp hch).2 _ him hid⟩

end Paired

/-- **A copy is isomorphic to what was copied**: its nodes are new, they are those that were copied
one for one, with the same constructs and places in the source, and their children are in the same
order. -/
theorem Copied.isomorphic (h : Copied t t' b k n c) (hl : Linked t f) (ha : t.Acyclic)
    (hl' : Linked t' f') (ha' : t'.Acyclic) :
    (∀ d ∈ t'.inside c, b ≤ d ∧ d < t'.size) ∧
    ∃ φ : NodeId → NodeId, φ n = c ∧ Set.BijOn φ (t.inside n) (t'.inside c) ∧
      ∀ m ∈ t.inside n, t'.kind (φ m) = t.kind m ∧ t'.position? (φ m) = t.position? m ∧
        t'.children (φ m) = (t.children m).map φ := by
  have pair {m d : NodeId} (hp : Paired t t' n c m d) : (b ≤ d ∧ d < t'.size) ∧
      t'.kind d = t.kind m ∧ t'.position? d = t.position? m ∧
      (t.children m).length = (t'.children d).length := by
    obtain ⟨k, hk⟩ := hp.copied h
    cases k with
    | zero => exact hk.elim
    | succ k => exact ⟨hk.1, hk.2.1, hk.2.2.1, hk.2.2.2.length_eq⟩
  have place : ∀ m, ∃ d, m ∈ t.inside n → Paired t t' n c m d := fun m => by
    by_cases hm : m ∈ t.inside n
    · obtain ⟨d, hd⟩ := Paired.exists_of_inside hl (fun _ _ hp => (pair hp).2.2.2) hm
      exact ⟨d, fun _ => hd⟩
    · exact ⟨0, fun hm' => absurd hm' hm⟩
  have origin {d : NodeId} (hd : d ∈ t'.inside c) : ∃ m, Paired t t' n c m d := by
    obtain ⟨m, hm⟩ := Paired.exists_of_inside hl'
      (fun _ _ hp => (pair hp.symm).2.2.2.symm) hd
    exact ⟨m, hm.symm⟩
  choose φ hφ using place
  refine ⟨fun d hd => (pair (origin hd).choose_spec).1, φ, ?_, ⟨?_, ?_, ?_⟩, fun m hm => ?_⟩
  · exact (hφ n .refl).unique .root hl ha
  · exact fun m hm => (hφ m hm).symm.mem_inside hl'
  · intro m hm m' hm' he
    exact (hφ m hm).symm.unique (he ▸ (hφ m' hm').symm) hl' ha'
  · intro d hd
    obtain ⟨m, hm⟩ := origin hd
    exact ⟨m, hm.mem_inside hl, (hφ m (hm.mem_inside hl)).unique hm hl ha⟩
  · obtain ⟨-, hkind, hposition, hlen⟩ := pair (hφ m hm)
    refine ⟨hkind, hposition, List.ext_getElem (by rw [List.length_map, hlen]) fun i hi hi' => ?_⟩
    rw [List.length_map] at hi'
    have hp := (hφ m hm).child (List.getElem?_eq_getElem hi') (List.getElem?_eq_getElem hi)
    rw [List.getElem_map]
    exact hp.unique (hφ _ (hp.mem_inside hl)) hl ha

end Codegen.Tree
