import Codegen.Proofs.Tree.Siblings
import Mathlib.Data.List.Lattice

/-!
# Edits of a tree that exchange siblings

A node in the place of one above it, siblings taken out one after another, and the children of a
node in the place of another one. What a tree shows of a body changes accordingly. With a new node
above some of its shapes a tree grows from below.

* `Forest.adopt`, `removeAll`, `splice`: the edits, on the links of a tree;
* `Shape.exists_rewrites_parts`: siblings in the place of others;
* `Tree.Shows.exchange`: **what a tree shows when siblings are put in the place of others**;
* `Tree.Plants`, `Plants.above`: **a tree to which a node above the last shapes is added**.
-/

namespace Codegen.Tree

variable {t t' : Tree} {f f' : NodeId → List NodeId} {a n p q source : NodeId}
variable {as bs cs ns : List NodeId}

/-! ## Links -/

theorem forest_empty : Forest .empty fun _ => [] where
  inside h := by cases h
  parent {p m} := by
    simp [parent?, node_of_size_le (t := .empty) (Nat.zero_le m), default, instInhabitedNode.default]
  distinct _ := .nil
  first p := by
    simp [first?, node_of_size_le (t := .empty) (Nat.zero_le p), default, instInhabitedNode.default]
  last p := by
    simp [last?, node_of_size_le (t := .empty) (Nat.zero_le p), default, instInhabitedNode.default]
  siblings h := by simp at h
  root {m} _ := by
    simp [previous?, next?, node_of_size_le (t := .empty) (Nat.zero_le m), default,
      instInhabitedNode.default]

namespace Forest

theorem adopt (h : Forest t f) (hp : p < t.size)
    (hcs : ∀ c ∈ cs, c < t.size ∧ ∀ q, c ∉ f q) (hn : cs.Nodup) :
    ∃ t', Forest t' (Function.update f p (f p ++ cs)) ∧ t'.size = t.size ∧
      ∀ i, t'.kind i = t.kind i := by
  induction cs generalizing t f with
  | nil => exact ⟨t, by simpa using h, rfl, fun _ => rfl⟩
  | cons c cs ih =>
    obtain ⟨⟨hc, hroot⟩, hcs⟩ := List.forall_mem_cons.mp hcs
    obtain ⟨hnc, hn⟩ := List.nodup_cons.mp hn
    have hrel := (Relinked.refl t).addChild p c
    have h₁ := h.addChild hp hc
    simp only [List.erase_of_not_mem (hroot _)] at h₁
    have hfree (d : NodeId) (hd : d ∈ cs) (q : NodeId) :
        d ∉ Function.update f p (f p ++ [c]) q := by
      have hdc : d ≠ c := fun hdc => hnc (hdc ▸ hd)
      by_cases hq : q = p
      · subst hq
        simpa [hdc] using (hcs d hd).2 q
      · rw [Function.update_of_ne hq]
        exact (hcs d hd).2 q
    obtain ⟨t', h', hs, hk⟩ := ih h₁ (hrel.size ▸ hp)
      (fun d hd => ⟨hrel.size ▸ (hcs d hd).1, hfree d hd⟩) hn
    exact ⟨t', by simpa using h', hs.trans hrel.size, fun i => (hk i).trans (hrel.kind i)⟩

theorem removeAll (h : Forest t f) (ns : List NodeId) :
    Forest (ns.foldl Tree.remove t) fun q => (f q).diff ns := by
  induction ns generalizing t f with
  | nil => exact h
  | cons n ns ih => simpa only [List.foldl_cons, List.diff_cons] using ih (h.remove n)

theorem insertAll (h : Forest t f) (hn : n ∈ f p) {cs : List NodeId}
    (hcs : ∀ c ∈ cs, n ≠ c ∧ c < t.size) :
    ∃ f', Forest (cs.foldl (fun t c => t.insertBefore n c) t) f' := by
  induction cs generalizing t f with
  | nil => exact ⟨f, h⟩
  | cons c cs ih =>
    have hc := hcs c List.mem_cons_self
    have hsize := ((Relinked.refl t).insertBefore n c).size
    refine ih (h.insertBefore hn hc.1 hc.2) ?_ fun d hd => ?_
    · obtain ⟨as, bs, hf⟩ := List.append_of_mem ((List.mem_erase_of_ne hc.1).mpr hn)
      simp [hf]
    · exact hsize ▸ hcs d (List.mem_cons_of_mem _ hd)

/-- **The children of a node in the place of another one, which is taken out.** -/
theorem splice (h : Forest t f) (hp : f p = as ++ n :: bs) (hne : source ≠ p)
    (hn : n ∉ f source) :
    Forest (t.splice n source)
      (Function.update (Function.update f source []) p (as ++ f source ++ bs)) := by
  have hmem : n ∈ f p := by simp [hp]
  have hother (c : NodeId) (hc : c ∈ f source) : n ≠ c ∧ c < t.size :=
    ⟨fun hnc => hn (hnc ▸ hc), (h.inside hc).2⟩
  obtain ⟨f', hf'⟩ := h.insertAll hmem hother
  rw [← h.children source] at hf'
  have h₁ := (h.linked.splice hn (h.inside hmem).2).forest fun {m} hm => (hf'.remove n).root hm
  convert h₁ using 1
  funext q
  by_cases hq : q = p
  · subst hq
    rw [Function.update_self, if_neg hne.symm, hp, inPlaceOf_split (hp ▸ h.distinct q)]
  · rw [Function.update_of_ne hq]
    by_cases hqs : q = source
    · simp [hqs]
    · rw [Function.update_of_ne hqs, if_neg hqs,
        inPlaceOf_of_not_mem fun hm => hq (h.parent_unique hm hmem)]

end Forest

end Codegen.Tree

namespace Codegen

open Shape

variable {t t' : Tree} {f f' : NodeId → List NodeId} {p i : NodeId} {k : NodeKind}
variable {X X' U V : List Shape} {as bs : List NodeId}

/-! ## What is shown -/

theorem append_cancel {us as' bs' : List NodeId} (hu : us ≠ []) (hd : (as ++ us ++ bs).Nodup)
    (he : as ++ us ++ bs = as' ++ us ++ bs') : as = as' ∧ bs = bs' := by
  obtain ⟨u, us, rfl⟩ := List.exists_cons_of_ne_nil hu
  simp only [List.append_assoc, List.cons_append] at he hd
  rw [List.nodup_middle, List.nodup_cons, List.mem_append, not_or] at hd
  obtain ⟨rfl, -, he⟩ := (List.append_cons_inj_of_notMem hd.1.1 hd.1.2).mp he
  exact ⟨rfl, List.append_cancel_left he⟩

/-- **Siblings in the place of others are displayed if the links say so**: the list that the others
were in changes, and no other list outside of them. -/
theorem Tree.Displays.exchange (h : Displays t f X) (hf : Forest t f) (hr : Rewrites U V X X')
    (hn : (ids X).Nodup) (hU : U ≠ []) (hp : f p = as ++ U.map (·.id) ++ bs)
    (hp' : f' p = as ++ V.map (·.id) ++ bs) (hk : ∀ i ∈ ids X, i ∉ ids U → t'.kind i = t.kind i)
    (hsame : ∀ i ∈ ids X, i ∉ ids U → i ≠ p → f' i = f i) (hV : Displays t' f' V) :
    Displays t' f' X' := by
  obtain ⟨u, us, rfl⟩ := List.exists_cons_of_ne_nil hU
  have hup : u.id ∈ f p := by simp [hp]
  refine h.rewrites hr hn hk (fun i hi hiU hu => hsame i hi hiU ?_) (fun i as' bs' hi => ?_) hV
  · rintro rfl
    exact hu u List.mem_cons_self hup
  · obtain rfl := hf.parent_unique (q := p) (p := i) (by simp [hi]) hup
    obtain ⟨rfl, rfl⟩ := append_cancel (by simp) (hp ▸ hf.distinct i) (hp.symm.trans hi)
    exact hp'

theorem Shape.not_mem_ids_parts {s : Shape} (hn : (ids X).Nodup) (hs : s ∈ subs X) :
    s.id ∉ ids s.parts := by
  have below : ∀ r : Shape, (ids r.parts).Nodup → s ∈ subs r.parts → s.id ∉ ids s.parts := by
    refine below_induction fun i k cs ih hn hs => ?_
    obtain ⟨r, hr, hsr⟩ := mem_subs.mp hs
    obtain ⟨as, bs, rfl⟩ := List.append_of_mem hr
    simp only [parts_node, ids_append, ids_cons, List.nodup_append, List.nodup_cons,
      List.mem_append, not_or] at hn
    obtain ⟨-, ⟨hrs, hrn, -⟩, -⟩ := hn
    rcases hsr with rfl | hsr
    · exact hrs.1
    · exact ih r hr hrn hsr
  exact below (node 0 .ret X) hn hs

theorem Shape.exists_parent {r s : Shape} (hs : s ∈ subs r.parts) :
    ∃ q ∈ subs [r], s ∈ q.parts := by
  induction r using below_induction with
  | h i k cs ih =>
    obtain ⟨c, hc, rfl | hs⟩ := mem_subs.mp hs
    · exact ⟨node i k cs, by simp, hc⟩
    · obtain ⟨q, hq, hsq⟩ := ih c hc hs
      refine ⟨q, ?_, hsq⟩
      rw [subs_cons, subs_nil, List.append_nil] at hq ⊢
      rcases List.mem_cons.mp hq with rfl | hq
      · exact List.mem_cons_of_mem _ (mem_subs_of_mem hc)
      · exact List.mem_cons_of_mem _ (mem_subs_of_parts hc hq)

theorem Shape.exists_rewrites_parts {r q : Shape} {as bs : List Shape} (hq : q ∈ subs [r])
    (hparts : q.parts = as ++ U ++ bs) (V : List Shape) : ∃ cs, Rewrites U V r.parts cs := by
  induction r using below_induction with
  | h i k cs ih =>
    rw [subs_cons, subs_nil, List.append_nil] at hq
    rcases List.mem_cons.mp hq with rfl | hq
    · obtain rfl : cs = as ++ U ++ bs := hparts
      exact ⟨_, .here as bs⟩
    · obtain ⟨c, hc, hqc⟩ := mem_subs.mp hq
      obtain ⟨cs', hr⟩ := ih c hc (by simpa using hqc)
      obtain ⟨ls, rs, rfl⟩ := List.append_of_mem hc
      obtain ⟨j, k', ds⟩ := c
      exact ⟨_, hr.deeper ls rs j k'⟩

theorem Shape.exists_rewrites {s : Shape} (hs : s ∈ subs X) (V : List Shape) :
    ∃ X', Rewrites [s] V X X' := by
  obtain ⟨q, hq, hsq⟩ := exists_parent (r := .node 0 .ret X) hs
  obtain ⟨as, bs, hparts⟩ := List.append_of_mem hsq
  exact exists_rewrites_parts hq (show q.parts = as ++ [s] ++ bs by simp [hparts]) V

namespace Tree.Shows

variable {s o : Shape}

theorem displays_of_forest {W : Shape} (h : t.Shows W) (hf : Forest t f) : Displays t f [W] := by
  obtain ⟨g, hg, hd⟩ := h.displays
  have hfg : f = g := funext fun q => by rw [← hf.children, ← hg.children]
  exact hfg ▸ hd

theorem not_mem_root (h : t.Shows (.node i k X)) (hf : Forest t f) (q : NodeId) : i ∉ f q := by
  intro hq
  have hroot := h.root
  rw [id_node, hf.parent.mpr hq] at hroot
  cases hroot

theorem lt_size {W : Shape} (h : t.Shows W) {j : NodeId} (hj : j ∈ ids [W]) : j < t.size := by
  obtain ⟨f, hf, hd⟩ := h.displays
  obtain ⟨s, hs, rfl⟩ := mem_ids.mp hj
  rw [subs_cons, subs_nil, List.append_nil] at hs
  rcases List.mem_cons.mp hs with rfl | hs
  · exact h.made
  · obtain ⟨q, hq, hsq⟩ := exists_parent hs
    exact (hf.inside (hd.mem hq hsq)).2

/-- **What a tree shows when siblings are put in the place of others.** -/
theorem exchange (h : t.Shows (.node i k X)) (hf : Forest t f)
    (hr : Rewrites U V X X') (hU : U ≠ []) (hp : f p = as ++ U.map (·.id) ++ bs)
    (hf' : Forest t' f') (hp' : f' p = as ++ V.map (·.id) ++ bs) (hsize : t.size ≤ t'.size)
    (hk : ∀ j ∈ ids [.node i k X], j ∉ ids U → t'.kind j = t.kind j)
    (hsame : ∀ j ∈ ids [.node i k X], j ∉ ids U → j ≠ p → f' j = f j)
    (hV : Displays t' f' V) (hroot : ∀ q, i ∉ f' q) : t'.Shows (.node i k X') := by
  have hd' := (h.displays_of_forest hf).exchange hf hr.single h.nodup hU hp hp' hk hsame hV
  refine hd'.shows hf' (Nat.lt_of_lt_of_le h.made hsize) ?_
  rw [Option.eq_none_iff_forall_ne_some]
  exact fun q hq => hroot q (hf'.parent.mp hq)

/-! ## Single nodes -/

theorem exists_siblings (h : t.Shows (.node i k X)) (hf : Forest t f) (hs : s ∈ subs X) :
    ∃ p as bs, f p = as ++ [s.id] ++ bs := by
  obtain ⟨q, hq, hsq⟩ := exists_parent (r := .node i k X) hs
  obtain ⟨as, bs, hparts⟩ := List.append_of_mem hsq
  refine ⟨q.id, as.map (·.id), bs.map (·.id), ?_⟩
  rw [((h.displays_of_forest hf) q hq).2, hparts]
  simp

theorem map_replace {n m : NodeId} {us : List NodeId} (hn : n ∉ us) :
    us.map (fun x => if x = n then m else x) = us := by
  refine (List.map_congr_left fun x hx => if_neg ?_).trans (List.map_id' us)
  rintro rfl
  exact hn hx

/-- **A new leaf in the place of a node.** -/
theorem replaceByNew (h : t.Shows (.node i k X)) (hs : s ∈ subs X) {kind : NodeKind}
    (position? : Option Position) (hr : Rewrites [s] [.node t.size kind []] X X') :
    ((t.createAt kind position?).2.replace s.id t.size).Shows (.node i k X') := by
  obtain ⟨f, hf, hd⟩ := h.displays
  obtain ⟨p, as, bs, hp⟩ := h.exists_siblings hf hs
  have hnew (q : NodeId) : t.size ∉ f q := fun hm => Nat.lt_irrefl _ (hf.inside hm).2
  have hmem : s.id ∈ f p := by simp [hp]
  have hf' := (hf.createAt kind position?).replace hmem (n := t.size) (by simp) hnew
  have hrel := (Relinked.refl (t.createAt kind position?).2).replace s.id t.size
  have hother {q : NodeId} (hq : q ≠ p) : s.id ∉ f q := fun hm => hq (hf.parent_unique hm hmem)
  have hd' := hf.distinct p
  rw [hp, List.append_assoc, List.singleton_append, List.nodup_middle, List.nodup_cons,
    List.mem_append, not_or] at hd'
  refine h.exchange hf hr (by simp) hp hf' ?_ ?_ ?_ ?_ ?_ ?_
  · simp [hp, map_replace hd'.1.1, map_replace hd'.1.2]
  · rw [hrel.size, size_createAt]
    exact Nat.le_succ _
  · intro j hj _
    rw [hrel.kind, Tree.kind, node_createAt, if_neg (Nat.ne_of_lt (h.lt_size hj))]
    rfl
  · exact fun j _ _ hjp => map_replace (hother hjp)
  · refine Displays.cons.mpr ⟨⟨?_, ?_⟩, by simp [Displays], by simp [Displays]⟩
    · rw [hrel.kind, Tree.kind, id_node, node_createAt, if_pos rfl]
      rfl
    · simp [hf.eq_nil (Nat.le_refl _)]
  · intro q hi
    obtain ⟨m, hm, he⟩ := List.mem_map.mp hi
    split at he
    · exact Nat.ne_of_lt (h.lt_size (j := i) (by simp)) he.symm
    · exact h.not_mem_root hf q (he ▸ hm)

/-- **A node in the place of its parent.** -/
theorem replaceByPart (h : t.Shows (.node i k X)) (hs : s ∈ subs X) (ho : o ∈ s.parts)
    (hr : Rewrites [s] [o] X X') : (t.replace s.id o.id).Shows (.node i k X') := by
  obtain ⟨f, hf, hd⟩ := h.displays
  obtain ⟨p, as, bs, hp⟩ := h.exists_siblings hf hs
  have hsub : s ∈ subs [Shape.node i k X] := by simp [hs]
  have hmem : s.id ∈ f p := by simp [hp]
  have hos : o.id ∈ f s.id := hd.mem hsub ho
  have hbelow : s.id ∉ ids s.parts := not_mem_ids_parts h.nodup hsub
  have hne : s.id ≠ o.id := fun he => hbelow (he ▸ id_mem_ids (mem_subs_of_mem ho))
  have hf' := hf.lift hmem (hf.inside hos).2 hne
  have hrel := (Relinked.refl t).replace s.id o.id
  have hother {q : NodeId} (hq : q ≠ p) : s.id ∉ f q := fun hm => hq (hf.parent_unique hm hmem)
  have hsame {q : NodeId} (hq : q ≠ s.id) : (f q).erase o.id = f q :=
    List.erase_of_not_mem fun hm => hq (hf.parent_unique hm hos)
  have hps : p ≠ s.id := by
    rintro rfl
    rw [(hd s hsub).2] at hmem
    exact hbelow (map_id_subset hmem)
  have hd' := hf.distinct p
  rw [hp, List.append_assoc, List.singleton_append, List.nodup_middle, List.nodup_cons,
    List.mem_append, not_or] at hd'
  refine h.exchange hf hr (by simp) hp hf' ?_ ?_ ?_ ?_ ?_ ?_
  · rw [hsame hps, hp]
    simp [map_replace hd'.1.1, map_replace hd'.1.2]
  · exact Nat.le_of_eq hrel.size.symm
  · exact fun j _ _ => hrel.kind j
  · intro j _ hjs hjp
    have hj : j ≠ s.id := by
      rintro rfl
      simp at hjs
    rw [hsame hj, map_replace (hother hjp)]
  · refine (hd.of_subset (U := [o]) ?_).congr (fun j _ => hrel.kind j) fun j hj => ?_
    · intro u hu
      rw [subs_cons, subs_nil, List.append_nil] at hu
      refine subs_trans hsub ?_
      rcases List.mem_cons.mp hu with rfl | hu
      · exact mem_subs_of_mem ho
      · exact mem_subs_of_parts ho hu
    · have hj : j ∈ ids s.parts := by
        obtain ⟨as, bs, hparts⟩ := List.append_of_mem ho
        rw [hparts, ids_append, ids_cons]
        simp only [ids_cons, ids_nil, List.append_nil, List.mem_cons] at hj
        simp only [List.mem_append, List.mem_cons]
        tauto
      have hjs : j ≠ s.id := fun he => hbelow (he ▸ hj)
      rw [hsame hjs, map_replace]
      obtain ⟨u, hu, rfl⟩ := mem_ids.mp hj
      rw [(hd u (subs_trans hsub hu)).2]
      refine fun hm => hbelow (ids_parts hu (map_id_subset hm))
  · intro q hi
    obtain ⟨m, hm, he⟩ := List.mem_map.mp hi
    split at he
    · exact h.not_mem_root hf _ (he ▸ hos)
    · exact h.not_mem_root hf q (he ▸ List.mem_of_mem_erase hm)

end Tree.Shows

/-! ## Trees that grow from below -/

namespace Tree

/-- **The tree displays the shapes**, and none of them is below another node. -/
structure Plants (t : Tree) (f : NodeId → List NodeId) (X : List Shape) : Prop where
  forest : Forest t f
  displays : Displays t f X
  roots : ∀ s ∈ X, ∀ p, s.id ∉ f p
  within : ∀ i ∈ ids X, i < t.size
  distinct : (X.map (·.id)).Nodup

theorem plants_empty : Plants .empty (fun _ => []) [] :=
  ⟨forest_empty, by simp [Displays], by simp, by simp, List.nodup_nil⟩

/-- **A new node above the last shapes.** -/
theorem Plants.above (h : Plants t f (U ++ V)) (k : NodeKind) :
    ∃ t' f', Plants t' f' (U ++ [.node t.size k V]) ∧ t'.size = t.size + 1 := by
  have hlast : f t.size = [] := h.forest.eq_nil (Nat.le_refl _)
  have hlt (s : Shape) (hs : s ∈ U ++ V) : s.id < t.size :=
    h.within _ (map_id_subset (List.mem_map_of_mem hs))
  have hids (i : NodeId) (hi : i ∈ ids (U ++ V)) : i ≠ t.size := Nat.ne_of_lt (h.within i hi)
  have hdistinct := h.distinct
  rw [List.map_append] at hdistinct
  have hroots : ∀ c ∈ V.map (·.id), c < (t.createAt k none).2.size ∧ ∀ q, c ∉ f q := by
    intro c hc
    obtain ⟨s, hs, rfl⟩ := List.mem_map.mp hc
    have hs := List.mem_append_right U hs
    exact ⟨Nat.lt_of_lt_of_le (hlt s hs) (by simp), h.roots s hs⟩
  obtain ⟨t', hforest, hsize, hkind⟩ := (h.forest.createAt k none).adopt (p := t.size) (by simp)
    hroots (List.nodup_append.mp hdistinct).2.1
  rw [hlast, List.nil_append] at hforest
  rw [size_createAt] at hsize
  have hnode (i : NodeId) : t'.kind i = if i = t.size then k else t.kind i := by
    rw [hkind, Tree.kind, node_createAt]
    split <;> rfl
  have hdisplays : Displays t' (Function.update f t.size (V.map (·.id))) (U ++ V) := by
    refine h.displays.congr (fun i hi => ?_) fun i hi => ?_
    · rw [hnode, if_neg (hids i hi)]
    · rw [Function.update_of_ne (hids i hi)]
  obtain ⟨hU, hV⟩ := Displays.append.mp hdisplays
  refine ⟨t', _, ⟨hforest, ?_, ?_, ?_, ?_⟩, hsize⟩
  · refine Displays.append.mpr ⟨hU, Displays.cons.mpr ⟨⟨?_, ?_⟩, hV, by simp [Displays]⟩⟩
    · rw [id_node, hnode, if_pos rfl, kind_node]
    · rw [id_node, Function.update_self, parts_node]
  · intro s hs p hm
    by_cases hp : p = t.size
    · subst hp
      rw [Function.update_self] at hm
      rcases List.mem_append.mp hs with hs | hs
      · exact (List.nodup_append.mp hdistinct).2.2 _ (List.mem_map_of_mem hs) _ hm rfl
      · obtain rfl := List.mem_singleton.mp hs
        obtain ⟨v, hv, he⟩ := List.mem_map.mp hm
        exact Nat.ne_of_lt (hlt v (List.mem_append_right U hv)) he
    · rw [Function.update_of_ne hp] at hm
      rcases List.mem_append.mp hs with hs | hs
      · exact h.roots s (List.mem_append_left V hs) p hm
      · obtain rfl := List.mem_singleton.mp hs
        exact absurd (h.forest.inside hm).2 (Nat.lt_irrefl _)
  · intro i hi
    rw [hsize]
    have hold (hi : i ∈ ids (U ++ V)) : i < t.size + 1 := Nat.lt_succ_of_lt (h.within i hi)
    simp only [ids_append, ids_cons, ids_nil, id_node, parts_node, List.append_nil,
      List.mem_append, List.mem_cons] at hi hold
    rcases hi with hi | rfl | hi
    · exact hold (.inl hi)
    · exact Nat.lt_succ_self _
    · exact hold (.inr hi)
  · rw [List.map_append, List.nodup_append]
    refine ⟨(List.nodup_append.mp hdistinct).1, List.nodup_singleton _, ?_⟩
    rintro i hi j hj rfl
    obtain ⟨s, hs, rfl⟩ := List.mem_map.mp hi
    exact Nat.ne_of_lt (hlt s (List.mem_append_left V hs)) (List.mem_singleton.mp hj)

theorem Plants.shows {s : Shape} (h : Plants t f [s]) : t.Shows s := by
  refine h.displays.shows h.forest (h.within _ (by simp)) ?_
  cases hp : t.parent? s.id with
  | none => rfl
  | some p => exact absurd (h.forest.parent.mp hp) (h.roots s (by simp) p)

end Tree

end Codegen
