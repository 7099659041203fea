import Codegen.Proofs.Tree.Clone
import Codegen.Tree.Edit

/-!
# Edits of a tree, one after the other

Whatever edits a tree is made by, its links stay consistent and each edit changes the lists of
children as its name says. The one condition is that no node is put below itself: a node that is
put somewhere is not the one that it is put below, before or in the place of, and not above that.

* `Edit.onLists`: **what an edit does to the lists of children**;
* `Edit.Allowed`, `Tree.Admits`: no node is put below itself;
* `Tree.Consistent`: **links that fit together**;
* `Sound.perform`: one edit;
* `Tree.links_kept`: every run of edits;
* `Consistent.clone_isomorphic`: **a copy is faithful and independent**.
-/

namespace Codegen

open Relation

/-! ## Edits on lists -/

/-- **What an edit does to the lists of children.** -/
def Edit.onLists (f : NodeId → List NodeId) : Edit → NodeId → List NodeId
  | create _ | setKind .. | clone _ => f
  | addChild p n => Tree.withLast f p n
  | addChildren p ns => ns.foldl (Tree.withLast · p ·) f
  | remove n => fun q => (f q).erase n
  | insertBefore a n => fun q => Tree.inPlaceOf a [n, a] ((f q).erase n)
  | replace a n => fun q => Tree.inPlaceOf a [n] ((f q).erase n)
  | splice n s => fun q => if q = s then [] else Tree.inPlaceOf n (f s) (f q)

/-- A node is neither another one nor above it. -/
def Tree.Clear (t : Tree) (a n : NodeId) : Prop := n ≠ a ∧ n ∉ t.ancestors a

instance (t : Tree) (a n : NodeId) : Decidable (t.Clear a n) := inferInstanceAs (Decidable (_ ∧ _))

/-- **No node is put below itself.** -/
def Edit.Allowed (t : Tree) : Edit → Prop
  | addChild p n => t.Clear p n
  | addChildren p ns => ∀ n ∈ ns, t.Clear p n
  | insertBefore a n | replace a n => t.Clear a n
  | splice n s => ∀ c ∈ t.children s, t.Clear n c
  | create _ | setKind .. | remove _ | clone _ => True

instance (t : Tree) (e : Edit) : Decidable (e.Allowed t) :=
  match e with
  | .addChild .. | .insertBefore .. | .replace .. => inferInstanceAs (Decidable (t.Clear _ _))
  | .addChildren .. | .splice .. => inferInstanceAs (Decidable (∀ n ∈ _, t.Clear _ n))
  | .create _ | .setKind .. | .remove _ | .clone _ => inferInstanceAs (Decidable True)

/-- What an edit makes: a node without links, a copy without a parent, or nothing. -/
def Edit.Makes (t : Tree) (made : Option NodeId) (t' : Tree) : Edit → Prop
  | create k => made = some t.size ∧ t'.size = t.size + 1 ∧ t'.kind t.size = k ∧
      t'.parent? t.size = none ∧ t'.children t.size = []
  | clone n => made = some t.size ∧ t'.parent? t.size = none ∧
      Tree.Copied t t' t.size (t.size + 1) n t.size
  | _ => made = none ∧ t'.size = t.size

namespace Tree

variable {t t' : Tree} {f f' : NodeId → List NodeId} {a m n p q s : NodeId} {ns : List NodeId}

/-- The edits name nodes that were made, and none puts a node below itself. -/
def Admits : Tree → List Edit → Prop
  | _, [] => True
  | t, e :: es => (e.touched.all t.contains = true ∧ e.Allowed t) ∧ (t.perform e).2.Admits es

instance decidableAdmits : (t : Tree) → (es : List Edit) → Decidable (t.Admits es)
  | _, [] => inferInstanceAs (Decidable True)
  | t, e :: es =>
    have := decidableAdmits (t.perform e).2 es
    inferInstanceAs (Decidable (_ ∧ _))

/-- The tree behind edits, one after the other. -/
def edited (t : Tree) (es : List Edit) : Tree := es.foldl (fun t e => (t.perform e).2) t

/-! ## One edit -/

/-- The links are those of the children, and there are no cycles. -/
structure Sound (t : Tree) : Prop where
  linked : Linked t t.children
  acyclic : t.Acyclic

theorem Linked.sound (h : Linked t f) (ha : t.Acyclic) : t.Sound :=
  ⟨(funext h.children : t.children = f) ▸ h, ha⟩

theorem Sound.not_above (h : t.Sound) (hc : t.Clear a n) : ¬ TransGen t.Under a n := fun ha =>
  hc.2 ((h.linked.mem_ancestors h.acyclic).mpr ha)

theorem Sound.not_inside (h : t.Sound) (hc : t.Clear a n) : ¬ ReflTransGen t.Under a n :=
  fun hr => (reflTransGen_iff_eq_or_transGen.mp hr).elim hc.1 (h.not_above hc)

/-- Nodes become the last children of a node. -/
theorem Linked.addChildren (hl : Linked t f) (ha : t.Acyclic) (hp : p < t.size)
    (hns : ∀ n ∈ ns, n < t.size ∧ ¬ ReflTransGen t.Under p n) :
    Linked (t.addChildren p ns) (ns.foldl (withLast · p ·) f) ∧ (t.addChildren p ns).Acyclic ∧
      (t.addChildren p ns).size = t.size := by
  induction ns generalizing t f with
  | nil => exact ⟨hl, ha, rfl⟩
  | cons n ns ih =>
    obtain ⟨hn, hpn⟩ := hns n List.mem_cons_self
    have hl' := hl.addChild hp hn
    have ha' := ha.addChild hl hp hn hpn
    have hsize := ((Relinked.refl t).addChild p n).size
    rw [Tree.addChildren, List.foldl_cons]
    generalize t.addChild p n = u at hl' ha' hsize ⊢
    -- the way up from the parent meets none of the new children
    have way {m : NodeId} (hr : TransGen u.Under p m) : TransGen t.Under p m := by
      have hstep (c q : NodeId) (hc : u.Under c q) : t.Under c q ∨ c = n ∧ q = p :=
        (mem_of_withLast (hl'.under.mp hc)).imp_left hl.under.mpr
      refine (below_of_attached (M := (· = n)) (T := (· = p)) hstep ?_ hr).resolve_right ?_
      · rintro x q rfl rfl
        exact hpn
      · rintro ⟨⟨x, rfl, hx⟩, -⟩
        exact hpn hx
    obtain ⟨h₁, h₂, h₃⟩ := ih hl' ha' (by rwa [hsize]) fun m hm => by
      obtain ⟨hm, hpm⟩ := hns m (List.mem_cons_of_mem _ hm)
      refine ⟨by rwa [hsize], fun hr => ?_⟩
      rcases reflTransGen_iff_eq_or_transGen.mp hr with rfl | hr
      · exact hpm .refl
      · exact hpm (way hr).to_reflTransGen
    exact ⟨h₁, h₂, h₃.trans hsize⟩

theorem Linked.makes_create (h : Linked t f) (k : NodeKind) :
    (Edit.create k).Makes t (some t.size) (t.createAt k none).2 := by
  have hnode : (t.createAt k none).2.node t.size = .detached k none := by
    rw [node_createAt, if_pos rfl]
  refine ⟨rfl, size_createAt, ?_, ?_, ?_⟩
  · rw [Tree.kind, hnode]
    rfl
  · rw [Tree.parent?, hnode]
    rfl
  · rw [(h.createAt k none).children, h.eq_nil (Nat.le_refl _)]

/-- What an edit leaves: links without cycles, and the lists of children that its name says. -/
structure Leaves (t : Tree) (e : Edit) (made : Option NodeId) (t' : Tree) : Prop where
  sound : t'.Sound
  lists : ∀ q < t.size, t'.children q = e.onLists t.children q
  makes : e.Makes t made t'

theorem Linked.leaves {e : Edit} {made : Option NodeId} (h : Linked t' (e.onLists t.children))
    (ha : t'.Acyclic) (hm : e.Makes t made t') : Leaves t e made t' :=
  ⟨h.sound ha, fun q _ => h.children q, hm⟩

/-- **One edit** keeps the links and does to the lists what its name says. -/
theorem Sound.perform (h : t.Sound) {e : Edit} (ht : e.touched.all t.contains = true)
    (ha : e.Allowed t) : Leaves t e (t.perform e).1 (t.perform e).2 := by
  have made {n : NodeId} (hn : n ∈ e.touched) : n < t.size := by
    simpa [Tree.contains] using List.all_eq_true.mp ht n hn
  have hl := h.linked
  have hrel := Relinked.refl t
  cases e with
  | create k =>
    exact (hl.createAt k none).leaves (h.acyclic.congr fun m => (links_createAt k none m).1)
      (hl.makes_create k)
  | setKind n k =>
    exact (hl.setKind n k).leaves (h.acyclic.congr fun m => (links_setKind k m).1)
      ⟨rfl, by simp [Tree.perform, Tree.setKind]⟩
  | addChild p n =>
    have hp : p < t.size := made (by simp [Edit.touched])
    have hn : n < t.size := made (by simp [Edit.touched])
    exact (hl.addChild hp hn).leaves (h.acyclic.addChild hl hp hn (h.not_inside ha))
      ⟨rfl, (hrel.addChild p n).size⟩
  | addChildren p ns =>
    cases ns with
    | nil => exact hl.leaves h.acyclic ⟨rfl, rfl⟩
    | cons n ns =>
      change Leaves t _ none (t.addChildren p (n :: ns))
      obtain ⟨hl', ha', hsize⟩ := hl.addChildren h.acyclic (made (by simp [Edit.touched]))
        fun m hm => ⟨made (List.mem_cons_of_mem p hm), h.not_inside (ha m hm)⟩
      exact hl'.leaves ha' ⟨rfl, hsize⟩
  | remove n =>
    exact (hl.remove n).leaves (h.acyclic.remove hl n) ⟨rfl, (hrel.remove n).size⟩
  | insertBefore a n =>
    have hne : a ≠ n := ha.1.symm
    have hlt : a < t.size ∧ n < t.size := ⟨made (by simp [Edit.touched, hne]),
      made (by simp [Edit.touched, hne])⟩
    exact (hl.insertBefore hne hlt.1 hlt.2).leaves
      (h.acyclic.insertBefore hl hne hlt.1 hlt.2 (h.not_above ha))
      ⟨rfl, (hrel.insertBefore a n).size⟩
  | replace a n =>
    have hne : a ≠ n := ha.1.symm
    have hlt : a < t.size ∧ n < t.size := ⟨made (by simp [Edit.touched, hne]),
      made (by simp [Edit.touched, hne])⟩
    exact (hl.replace hne hlt.1 hlt.2).leaves
      (h.acyclic.replace hl hne hlt.1 hlt.2 (h.not_above ha)) ⟨rfl, (hrel.replace a n).size⟩
  | splice n s =>
    have hn : n < t.size := made (by simp [Edit.touched])
    exact (hl.splice (fun hm => (ha n hm).1 rfl) hn).leaves
      (h.acyclic.splice hl hn fun c hc => ⟨(ha c hc).1, h.not_above (ha c hc)⟩)
      ⟨rfl, (hrel.splice n s).size⟩
  | clone n =>
    obtain ⟨t', f', hclone, hg, hcopied, halone, -⟩ := hl.clone h.acyclic (n := n)
      (made (by simp [Edit.touched]))
    rw [Tree.perform, hclone]
    exact ⟨hg.linked.sound (hg.acyclic hl h.acyclic),
      fun q hq => (hg.linked.children q).trans (hg.lists q hq),
      rfl, halone.1, hcopied⟩

/-! ## Runs of edits -/

theorem sound_empty : Tree.empty.Sound := by
  have hnode (m : NodeId) : Tree.empty.node m = default := node_of_size_le (Nat.zero_le m)
  have hl : Linked Tree.empty fun _ => [] := by
    refine ⟨?_, ?_, fun _ => .nil, ?_, ?_, ?_, ?_⟩
    all_goals simp [parent?, first?, last?, next?, previous?, hnode, default,
      instInhabitedNode.default]
  refine hl.sound fun n hn => ?_
  obtain ⟨p, hp, -⟩ := TransGen.head'_iff.mp hn
  simp [hl.under] at hp

theorem Sound.edited (h : t.Sound) {es : List Edit} (hes : t.Admits es) : (t.edited es).Sound := by
  induction es generalizing t with
  | nil => exact h
  | cons e es ih => exact ih (h.perform hes.1.1 hes.1.2).sound hes.2

/-- A walk along the neighbours, to its end. -/
inductive Walk (t : Tree) : Option NodeId → List NodeId → Prop
  | stop : Walk t none []
  | step {m : NodeId} {ms : List NodeId} (h : Walk t (t.next? m) ms) : Walk t (some m) (m :: ms)

/-- **The links fit together.** Neighbours know each other and share their parent; a walk from the
first child of a node meets its children, each once, and ends with the last; and there are no
cycles. -/
structure Consistent (t : Tree) : Prop where
  neighbours : ∀ a b, t.next? a = some b ↔ t.previous? b = some a
  siblings : ∀ a b, t.next? a = some b → t.parent? a = t.parent? b
  walk : ∀ p, t.Walk (t.first? p) (t.children p)
  mem_children : ∀ p m, m ∈ t.children p ↔ t.parent? m = some p
  once : ∀ p, (t.children p).Nodup
  last : ∀ p, t.last? p = (t.children p).getLast?
  acyclic : ∀ n, ¬ TransGen (fun c p => t.parent? c = some p) n n

theorem Linked.walk (h : Linked t f) {as bs : List NodeId} (hf : f p = as ++ bs) :
    t.Walk bs.head? bs := by
  induction bs generalizing as with
  | nil => exact .stop
  | cons m bs ih =>
    refine .step ?_
    rw [(h.siblings hf).2]
    exact ih (hf.trans (List.append_cons ..))

theorem Sound.consistent (h : t.Sound) : t.Consistent where
  neighbours _ _ := h.linked.neighbours
  siblings _ _ := h.linked.parent_eq
  walk p := h.linked.first p ▸ h.linked.walk (List.nil_append _).symm
  mem_children _ _ := h.linked.parent.symm
  once := h.linked.distinct
  last := h.linked.last
  acyclic := h.acyclic

theorem Walk.eq_head? {o : Option NodeId} (h : t.Walk o ns) : o = ns.head? := by
  cases h <;> rfl

theorem Walk.rest {o : Option NodeId} {as bs : List NodeId} (h : t.Walk o (as ++ m :: bs)) :
    t.Walk (t.next? m) bs := by
  induction as generalizing o with
  | nil =>
    cases h with
    | step h => exact h
  | cons a as ih =>
    cases h with
    | step h => exact ih h

/-- **Links that fit together are those of the children.** -/
theorem Consistent.sound (h : t.Consistent) : t.Sound where
  acyclic := h.acyclic
  linked := by
    have next {p m : NodeId} {as bs : List NodeId} (hf : t.children p = as ++ m :: bs) :
        t.next? m = bs.head? := (hf ▸ h.walk p : t.Walk _ (as ++ m :: bs)).rest.eq_head?
    refine ⟨fun {p m} hm => ⟨?_, ?_⟩, (h.mem_children _ _).symm, h.once,
      fun p => (h.walk p).eq_head?, h.last, fun {p m as bs} hf => ⟨?_, next hf⟩, h.neighbours _ _⟩
    · by_contra hp
      have hnil : t.children p = [] := by
        rw [Tree.children, first?, node_of_size_le (Nat.not_lt.mp hp)]
        rfl
      rw [hnil] at hm
      cases hm
    · exact lt_size_of_parent ((h.mem_children p m).mp hm)
    · rcases List.eq_nil_or_concat as with rfl | ⟨as, a, rfl⟩
      · -- a node before the first child would be a child that is not before it
        refine Option.eq_none_iff_forall_ne_some.mpr fun a ha => ?_
        have hnext := (h.neighbours a m).mpr ha
        have hm : t.parent? m = some p := (h.mem_children p m).mp (by simp [hf])
        obtain ⟨cs, ds, hsplit⟩ := List.append_of_mem
          ((h.mem_children p a).mpr ((h.siblings a m hnext).trans hm))
        obtain ⟨es, rfl⟩ := List.head?_eq_some_iff.mp ((next hsplit).symm.trans hnext)
        have hd := h.once p
        have hhead : (t.children p).head? = some m := by rw [hf]; rfl
        rw [hsplit, List.append_cons] at hd hhead
        simpa using (Linked.head?_eq_some_iff hd).mp hhead
      · rw [List.concat_eq_append] at hf ⊢
        have ha := next (hf.trans (List.append_assoc ..))
        rw [List.getLast?_concat]
        exact (h.neighbours a m).mp ha

/-- **The links of a tree are kept.** Behind every run of edits none of which puts a node below
itself, the links fit together, and the next edit changes the lists of children as its name says,
and no other one. -/
theorem links_kept {es : List Edit} (h : Tree.empty.Admits es) :
    (Tree.empty.edited es).Consistent ∧
    ∀ e : Edit, e.touched.all (Tree.empty.edited es).contains = true →
      e.Allowed (Tree.empty.edited es) →
      ∃ made t', (Tree.empty.edited es).perform? e = some (made, t') ∧ t'.Consistent ∧
        (∀ q < (Tree.empty.edited es).size,
          t'.children q = e.onLists (Tree.empty.edited es).children q) ∧
        e.Makes (Tree.empty.edited es) made t' := by
  have hs := sound_empty.edited h
  refine ⟨hs.consistent, fun e ht ha => ?_⟩
  have he := hs.perform ht ha
  exact ⟨_, _, if_pos ht, he.sound.consistent, he.lists, he.makes⟩

/-- A node is replaced by its own child, and nodes are put before one that has no parent. -/
def uprooted : List Edit :=
  [.create .parenthesis, .create .parenthesis, .create .parenthesis, .create .parenthesis,
    .create .parenthesis, .addChildren 0 [1, 2], .addChild 1 3, .insertBefore 3 4, .replace 1 3,
    .insertBefore 1 2, .splice 1 0, .addChild 0 4, .setKind 4 .ret]

theorem links_of_uprooted :
    Tree.empty.Admits uprooted ∧ (Tree.empty.edited uprooted).children 0 = [4] ∧
    (Tree.empty.edited uprooted).next? 2 = some 3 ∧
    (Tree.empty.edited uprooted).parent? 3 = none ∧
    (Tree.empty.edited uprooted).Consistent ∧
    ∃ made t', (Tree.empty.edited uprooted).perform? (.clone 0) = some (made, t') ∧
      t'.Consistent := by
  have h : Tree.empty.Admits uprooted := by decide +kernel
  have hkept := links_kept h
  refine ⟨h, by decide +kernel, by decide +kernel, by decide +kernel, hkept.1, ?_⟩
  obtain ⟨made, t', ht', hc, -⟩ := hkept.2 (.clone 0) (by decide +kernel) trivial
  exact ⟨made, t', ht', hc⟩

/-! ## Copies -/

/-- **A copy is faithful and independent.** In a tree whose links fit together, the copy of a node
has no parent and no neighbours. What is inside of it is isomorphic to what is inside of the node:
the same constructs at the same places in the source, with their children in the same order. All of
it is new, and every node that there was stays as it is, with its links and its children. -/
theorem Consistent.clone_isomorphic (h : t.Consistent) (hn : n < t.size) :
    ∃ c t', t.clone n = (c, t') ∧ t'.Consistent ∧
      (t'.parent? c = none ∧ t'.previous? c = none ∧ t'.next? c = none) ∧
      (∃ φ : NodeId → NodeId, φ n = c ∧ Set.BijOn φ (t.inside n) (t'.inside c) ∧
        ∀ m ∈ t.inside n, t'.kind (φ m) = t.kind m ∧ t'.position? (φ m) = t.position? m ∧
          t'.children (φ m) = (t.children m).map φ) ∧
      (∀ d ∈ t'.inside c, t.size ≤ d ∧ d < t'.size) ∧
      ∀ m < t.size, t'.node m = t.node m ∧ t'.children m = t.children m := by
  obtain ⟨hl, ha⟩ := h.sound
  obtain ⟨t', f', hclone, hg, hcopied, halone, hsame⟩ := hl.clone ha hn
  have ha' := hg.acyclic hl ha
  obtain ⟨hnew, hiso⟩ := hcopied.isomorphic hl ha hg.linked ha'
  exact ⟨t.size, t', hclone, (hg.linked.sound ha').consistent, halone, hiso, hnew,
    fun m hm => ⟨hsame m hm, (hg.linked.children m).trans (hg.lists m hm)⟩⟩

/-- A node and the one below it are copied, beside nodes that have neighbours but no parent. -/
theorem clone_of_uprooted :
    ∃ c t', (Tree.empty.edited uprooted).clone 0 = (c, t') ∧ t'.Consistent ∧
      t'.parent? c = none ∧ (∃ d, t'.children c = [d] ∧ 5 ≤ d ∧ t'.kind d = .ret) ∧
      t'.children 0 = [4] ∧ t'.parent? 2 = none ∧ t'.next? 2 = some 3 := by
  have hadmits : Tree.empty.Admits uprooted := by decide +kernel
  have hc := (sound_empty.edited hadmits).consistent
  obtain ⟨c, t', hclone, hc', halone, ⟨φ, hφ, hbij, hiso⟩, hnew, hsame⟩ :=
    hc.clone_isomorphic (n := 0) (by decide +kernel)
  have hsize : (Tree.empty.edited uprooted).size = 5 := by decide +kernel
  have hchildren : (Tree.empty.edited uprooted).children 0 = [4] := by decide +kernel
  have hmem : 4 ∈ (Tree.empty.edited uprooted).inside 0 :=
    .single (show (Tree.empty.edited uprooted).parent? 4 = some 0 by decide +kernel)
  obtain ⟨hnode, -⟩ := hsame 2 (hsize ▸ by decide)
  refine ⟨c, t', hclone, hc', halone.1, ⟨φ 4, ?_, hsize ▸ (hnew _ (hbij.1 hmem)).1, ?_⟩, ?_, ?_, ?_⟩
  · rw [← hφ, (hiso 0 .refl).2.2, hchildren]
    rfl
  · rw [(hiso 4 hmem).1]
    decide +kernel
  · rw [(hsame 0 (hsize ▸ by decide)).2, hchildren]
  · rw [parent?, hnode]
    decide +kernel
  · rw [next?, hnode]
    decide +kernel

end Tree

end Codegen
