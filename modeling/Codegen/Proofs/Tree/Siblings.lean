import Codegen.Proofs.Tree.Standing

/-!
# Siblings and what is below them

A list of shapes stands for siblings of a tree. Simplifications put some siblings in the place of
others, somewhere below.

* `Shape.subs`, `Shape.labels`: the nodes of siblings, each before those below it;
* `Tree.Displays`: **a tree displays siblings with all below them**;
* `Tree.Displays.formatOf_eq`: what it displays has its types;
* `Tree.Shows.displays`, `Displays.shows`: what it shows of a body;
* `Rewrites`: **some siblings in the place of others**, and what a tree displays behind that.
-/

namespace Codegen

namespace Shape

/-! ## Nodes -/

mutual

/-- A shape and the ones below it. -/
def within : Shape → List Shape
  | node i k cs => node i k cs :: subs cs

/-- Siblings and the shapes below them, each before those below it. -/
def subs : List Shape → List Shape
  | [] => []
  | s :: ss => s.within ++ subs ss

end

variable {s c u : Shape} {X Y : List Shape}

@[simp] theorem id_node (i : NodeId) (k : NodeKind) (cs : List Shape) : (node i k cs).id = i := rfl

@[simp] theorem kind_node (i : NodeId) (k : NodeKind) (cs : List Shape) :
    (node i k cs).kind = k := rfl

@[simp] theorem parts_node (i : NodeId) (k : NodeKind) (cs : List Shape) :
    (node i k cs).parts = cs := rfl

@[simp] theorem subs_nil : subs [] = [] := by rw [subs]

@[simp] theorem subs_cons : subs (s :: X) = s :: (subs s.parts ++ subs X) := by
  cases s
  rw [subs, within, List.cons_append]
  rfl

@[simp] theorem subs_append : subs (X ++ Y) = subs X ++ subs Y := by
  induction X with
  | nil => simp
  | cons s X ih => simp [ih]

theorem below_induction {P : Shape → Prop}
    (h : ∀ i k cs, (∀ c ∈ cs, P c) → P (node i k cs)) : ∀ s, P s
  | node i k cs => h i k cs fun c _ => below_induction h c

theorem mem_subs : u ∈ subs X ↔ ∃ s ∈ X, u = s ∨ u ∈ subs s.parts := by
  induction X with
  | nil => simp
  | cons s X ih => simp [ih, or_assoc]

theorem mem_subs_of_mem (h : s ∈ X) : s ∈ subs X := mem_subs.mpr ⟨s, h, .inl rfl⟩

theorem mem_subs_of_parts (h : s ∈ X) (hu : u ∈ subs s.parts) : u ∈ subs X :=
  mem_subs.mpr ⟨s, h, .inr hu⟩

theorem subs_trans (h : s ∈ subs X) (hc : c ∈ subs s.parts) : c ∈ subs X := by
  have below : ∀ r : Shape, s ∈ subs r.parts → c ∈ subs r.parts := by
    refine below_induction fun i k cs ih hs => ?_
    obtain ⟨r, hr, rfl | hs⟩ := mem_subs.mp hs
    · exact mem_subs_of_parts hr hc
    · exact mem_subs_of_parts hr (ih r hr hs)
  obtain ⟨r, hr, rfl | hs⟩ := mem_subs.mp h
  · exact mem_subs_of_parts hr hc
  · exact mem_subs_of_parts hr (below r hs)

theorem subs_sublist (h : s ∈ subs X) : (subs [s]).Sublist (subs X) := by
  have member {X : List Shape} {r : Shape} (hr : r ∈ X) : (subs [r]).Sublist (subs X) := by
    obtain ⟨as, bs, rfl⟩ := List.append_of_mem hr
    simp
  have below : ∀ r : Shape, s ∈ subs r.parts → (subs [s]).Sublist (subs r.parts) := by
    refine below_induction fun i k cs ih hs => ?_
    obtain ⟨r, hr, rfl | hs⟩ := mem_subs.mp hs
    · exact member hr
    · refine (ih r hr hs).trans ((List.Sublist.trans ?_ (member hr)))
      simp
  obtain ⟨r, hr, rfl | hs⟩ := mem_subs.mp h
  · exact member hr
  · refine (below r hs).trans (List.Sublist.trans ?_ (member hr))
    simp

theorem subs_induction {P : Shape → Prop} (h : P s)
    (hp : ∀ u ∈ subs [s], P u → ∀ c ∈ u.parts, P c) (hu : u ∈ subs [s]) : P u := by
  induction s using below_induction with
  | h i k cs ih =>
    rcases mem_subs.mp hu with ⟨_, hs, rfl | hu⟩
    · exact List.mem_singleton.mp hs ▸ h
    · obtain rfl := List.mem_singleton.mp hs
      obtain ⟨c, hc, hu⟩ := mem_subs.mp hu
      have hsub {v} (hv : v ∈ subs [c]) : v ∈ subs [node i k cs] :=
        mem_subs_of_parts List.mem_cons_self (mem_subs.mpr ⟨c, hc, by simpa using hv⟩)
      exact ih c hc (hp _ (mem_subs_of_mem List.mem_cons_self) h c hc)
        (fun v hv => hp v (hsub hv)) (by simpa using hu)

/-- The numbers and the constructs of siblings and of all below them. -/
def labels (X : List Shape) : List (NodeId × NodeKind) := (subs X).map fun s => (s.id, s.kind)

/-- The numbers of siblings and of all below them. -/
def ids (X : List Shape) : List NodeId := (subs X).map (·.id)

@[simp] theorem labels_nil : labels [] = [] := by simp [labels]

@[simp] theorem labels_cons :
    labels (s :: X) = (s.id, s.kind) :: (labels s.parts ++ labels X) := by
  simp [labels]

@[simp] theorem labels_append : labels (X ++ Y) = labels X ++ labels Y := by simp [labels]

@[simp] theorem ids_nil : ids [] = [] := by simp [ids]

@[simp] theorem ids_cons : ids (s :: X) = s.id :: (ids s.parts ++ ids X) := by simp [ids]

@[simp] theorem ids_append : ids (X ++ Y) = ids X ++ ids Y := by simp [ids]

theorem map_labels : (labels X).map (·.1) = ids X := by simp [labels, ids]

theorem mem_ids {n : NodeId} : n ∈ ids X ↔ ∃ s ∈ subs X, s.id = n := by simp [ids]

theorem id_mem_ids (h : s ∈ subs X) : s.id ∈ ids X := mem_ids.mpr ⟨s, h, rfl⟩

theorem mem_labels {l : NodeId × NodeKind} :
    l ∈ labels X ↔ ∃ s ∈ subs X, s.id = l.1 ∧ s.kind = l.2 := by
  simp [labels, Prod.ext_iff]

theorem ids_parts (h : s ∈ subs X) {n : NodeId} (hn : n ∈ ids s.parts) : n ∈ ids X := by
  obtain ⟨u, hu, rfl⟩ := mem_ids.mp hn
  exact id_mem_ids (subs_trans h hu)

theorem map_id_subset : X.map (·.id) ⊆ ids X := by
  intro n hn
  obtain ⟨s, hs, rfl⟩ := List.mem_map.mp hn
  exact id_mem_ids (mem_subs_of_mem hs)

theorem ids_sublist (h : s ∈ subs X) : (ids [s]).Sublist (ids X) := (subs_sublist h).map _

theorem ids_part (h : c ∈ s.parts) : ids [c] ⊆ ids [s] :=
  (ids_sublist (mem_subs_of_parts List.mem_cons_self (mem_subs_of_mem h))).subset

theorem not_mem_map_id (hn : (ids X).Nodup) (hs : s ∈ X) (hu : u ∈ subs s.parts) :
    u.id ∉ X.map (·.id) := by
  obtain ⟨as, bs, rfl⟩ := List.append_of_mem hs
  simp only [ids_append, ids_cons] at hn
  have hu := id_mem_ids hu
  have ha : ∀ {x}, x ∈ as.map (·.id) → x ∈ ids as := fun h => map_id_subset h
  have hb : ∀ {x}, x ∈ bs.map (·.id) → x ∈ ids bs := fun h => map_id_subset h
  intro hm
  simp only [List.map_append, List.map_cons, List.mem_append, List.mem_cons] at hm
  rw [List.nodup_append, List.nodup_cons, List.nodup_append] at hn
  obtain ⟨-, ⟨hs, -, -, hsb⟩, hd⟩ := hn
  rcases hm with hm | hm | hm
  · exact hd _ (ha hm) _ (by simp [hu]) rfl
  · exact hs (by simp [← hm, hu])
  · exact hsb _ hu _ (hb hm) rfl

/-! ## Siblings in the place of others -/

/-- **Some siblings are put in the place of others**, somewhere among siblings or below them. -/
inductive Rewrites (U V : List Shape) : List Shape → List Shape → Prop
  | here (as bs : List Shape) : Rewrites U V (as ++ U ++ bs) (as ++ V ++ bs)
  | deeper {cs cs' : List Shape} (as bs : List Shape) (i : NodeId) (k : NodeKind)
      (h : Rewrites U V cs cs') : Rewrites U V (as ++ node i k cs :: bs) (as ++ node i k cs' :: bs)

namespace Rewrites

variable {U V X' : List Shape}

theorem single (h : Rewrites U V X X') {i : NodeId} {k : NodeKind} :
    Rewrites U V [node i k X] [node i k X'] := h.deeper [] [] i k

theorem around (h : Rewrites U V X X') (as bs : List Shape) :
    Rewrites U V (as ++ X ++ bs) (as ++ X' ++ bs) := by
  cases h with
  | here cs ds => simpa using Rewrites.here (U := U) (V := V) (as ++ cs) (ds ++ bs)
  | deeper cs ds i k h => simpa using h.deeper (as ++ cs) (ds ++ bs) i k

theorem cons (h : Rewrites U V X X') (s : Shape) : Rewrites U V (s :: X) (s :: X') := by
  simpa using h.around [s] []

theorem head (h : Rewrites U V [s] [u]) (X : List Shape) : Rewrites U V (s :: X) (u :: X) := by
  simpa using h.around [] X

theorem inner {as bs : List Shape} (h : Rewrites (as ++ U ++ bs) (as ++ V ++ bs) X X') :
    Rewrites U V X X' := by
  induction h with
  | here cs ds => simpa using Rewrites.here (U := U) (V := V) (cs ++ as) (bs ++ ds)
  | deeper cs ds i k _ ih => exact ih.deeper cs ds i k

theorem labels_eq (h : Rewrites U V X X') :
    ∃ ls rs, labels X = ls ++ labels U ++ rs ∧ labels X' = ls ++ labels V ++ rs := by
  induction h with
  | here as bs => exact ⟨labels as, labels bs, by simp, by simp⟩
  | deeper as bs i k _ ih =>
    obtain ⟨ls, rs, h₁, h₂⟩ := ih
    refine ⟨labels as ++ (i, k) :: ls, rs ++ labels bs, ?_, ?_⟩
    · simp [h₁]
    · simp [h₂]

theorem ids_eq (h : Rewrites U V X X') :
    ∃ ls rs, ids X = ls ++ ids U ++ rs ∧ ids X' = ls ++ ids V ++ rs := by
  obtain ⟨ls, rs, h₁, h₂⟩ := h.labels_eq
  refine ⟨ls.map (·.1), rs.map (·.1), ?_, ?_⟩
  · rw [← map_labels, h₁]
    simp [map_labels]
  · rw [← map_labels, h₂]
    simp [map_labels]

theorem heads (h : Rewrites U V X X') :
    (∃ as bs, X = as ++ U ++ bs ∧ X' = as ++ V ++ bs) ∨
      X'.map (·.id) = X.map (·.id) ∧ ∃ s ∈ X, ∀ u ∈ U, u ∈ subs s.parts := by
  cases h with
  | here as bs => exact .inl ⟨as, bs, rfl, rfl⟩
  | deeper as bs i k h =>
    refine .inr ⟨by simp, node i k _, List.mem_append_right _ List.mem_cons_self, fun u hu => ?_⟩
    induction h with
    | here => exact mem_subs_of_mem (by simp [hu])
    | deeper as bs i k _ ih => exact mem_subs_of_parts (s := node i k _) (by simp) ih

end Rewrites

end Shape

open Shape

namespace Tree

variable {t t' : Tree} {f f' : NodeId → List NodeId} {W s : Shape} {X X' U V : List Shape}

/-! ## Trees that display siblings -/

/-- **The tree displays the siblings with all below them**, as far as its lists of children tell. -/
def Displays (t : Tree) (f : NodeId → List NodeId) (X : List Shape) : Prop :=
  ∀ s ∈ subs X, t.kind s.id = s.kind ∧ f s.id = s.parts.map (·.id)

namespace Displays

theorem of_subset (h : Displays t f X) (hs : subs U ⊆ subs X) : Displays t f U :=
  fun s hu => h s (hs hu)

theorem parts (h : Displays t f X) (hs : s ∈ subs X) : Displays t f s.parts :=
  h.of_subset fun _ hu => subs_trans hs hu

theorem sub (h : Displays t f X) (hs : s ∈ subs X) : Displays t f [s] :=
  h.of_subset (subs_sublist hs).subset

theorem part {c : Shape} (h : Displays t f [s]) (hc : c ∈ s.parts) : Displays t f [c] :=
  h.sub (mem_subs_of_parts List.mem_cons_self (mem_subs_of_mem hc))

theorem append : Displays t f (X ++ U) ↔ Displays t f X ∧ Displays t f U := by
  simp only [Displays, subs_append, List.forall_mem_append]

theorem cons : Displays t f (s :: X) ↔
    (t.kind s.id = s.kind ∧ f s.id = s.parts.map (·.id)) ∧ Displays t f s.parts ∧
      Displays t f X := by
  simp only [Displays, subs_cons, List.forall_mem_cons, List.forall_mem_append]

theorem mem (h : Displays t f X) (hs : s ∈ subs X) {u : Shape} (hu : u ∈ s.parts) :
    u.id ∈ f s.id := by
  rw [(h s hs).2]
  exact List.mem_map_of_mem hu

theorem congr (h : Displays t f X) (hk : ∀ i ∈ ids X, t'.kind i = t.kind i)
    (hf : ∀ i ∈ ids X, f' i = f i) : Displays t' f' X := fun s hs => by
  rw [hk _ (id_mem_ids hs), hf _ (id_mem_ids hs)]
  exact h s hs

theorem eq_of_id (h : Displays t f [s]) (hu : Displays t f [W]) (he : s.id = W.id) : s = W := by
  induction s using below_induction generalizing W with
  | h i k cs ih =>
    cases W with
    | node j m ds =>
      obtain ⟨hk, hc⟩ := h _ (mem_subs_of_mem List.mem_cons_self)
      obtain ⟨hm, hd⟩ := hu _ (mem_subs_of_mem List.mem_cons_self)
      obtain rfl : i = j := he
      obtain rfl : k = m := hk.symm.trans hm
      have hids : cs.map (·.id) = ds.map (·.id) := hc.symm.trans hd
      congr 1
      refine List.ext_getElem (by simpa using congrArg List.length hids) fun n hn hn' => ?_
      have hget := List.getElem_of_eq hids (by simpa using hn)
      rw [List.getElem_map, List.getElem_map] at hget
      exact ih _ (List.getElem_mem hn) (h.part (List.getElem_mem hn))
        (hu.part (List.getElem_mem hn')) hget

theorem not_below (h : Displays t f [s]) : s.id ∉ ids s.parts := fun hi => by
  obtain ⟨u, hu, he⟩ := mem_ids.mp hi
  obtain rfl := (h.sub (mem_subs_of_parts List.mem_cons_self hu)).eq_of_id h he
  have hlen := (subs_sublist hu).length_le
  simp only [subs_cons, subs_nil, List.append_nil, List.length_cons] at hlen
  omega

/-- What is below one part of a node is not below another one: its parent would be. -/
theorem apart (h : Displays t f [s]) (hl : Linked t f) {a b : Shape} (ha : a ∈ s.parts)
    (hb : b ∈ s.parts) (hne : a.id ≠ b.id) : (ids [a]).Disjoint (ids [b]) := by
  have hself : s ∈ subs [s] := mem_subs_of_mem List.mem_cons_self
  have hin {c u : Shape} (hc : c ∈ s.parts) (hu : u ∈ subs [c]) : u ∈ subs s.parts :=
    mem_subs.mpr ⟨c, hc, by simpa using hu⟩
  have hchild {c u v : Shape} (hc : c ∈ s.parts) (hu : u ∈ subs [c]) (hv : v ∈ u.parts) :
      v.id ∈ f u.id := h.mem (mem_subs_of_parts List.mem_cons_self (hin hc hu)) hv
  -- the parts themselves are right below the node
  have hpart {c d v : Shape} (hc : c ∈ s.parts) (hd : d ∈ s.parts) (hcd : c.id ≠ d.id)
      (hv : v ∈ subs [c]) : v.id ≠ d.id := by
    refine subs_induction (P := fun v => v.id ≠ d.id) hcd (fun u hu _ w hw he => ?_) hv
    have hm := he ▸ hchild hc hu hw
    exact h.not_below (hl.parent_unique hm (h.mem hself hd) ▸ id_mem_ids (hin hc hu))
  intro n hna hnb
  obtain ⟨u, hu, rfl⟩ := mem_ids.mp hna
  refine subs_induction (P := fun u => u.id ∉ ids [b]) (fun hm => ?_) (fun v hv hvb w hw hm => ?_)
    hu hnb
  · obtain ⟨w, hw, he⟩ := mem_ids.mp hm
    exact hpart hb ha hne.symm hw he
  · obtain ⟨x, hx, he⟩ := mem_ids.mp hm
    have hv' := hchild ha hv hw
    refine subs_induction (P := fun x => x.id ≠ w.id) (fun hbw => ?_) (fun y hy _ x hx he => ?_)
      hx he
    · exact hpart ha hb hne (subs_trans hv (by simpa using mem_subs_of_mem hw)) hbw.symm
    · exact hvb (hl.parent_unique hv' (he ▸ hchild hb hy hx) ▸ id_mem_ids hy)

/-- **The nodes of what is displayed differ.** -/
theorem nodup (h : Displays t f [s]) (hl : Linked t f) : (ids [s]).Nodup := by
  induction s using below_induction with
  | h i k cs ih =>
    have hids : ids cs = cs.flatMap fun c => ids [c] := by
      clear ih h
      induction cs with
      | nil => simp
      | cons c cs ih => simp [ih]
    have hd : (cs.map (·.id)).Nodup :=
      (h (Shape.node i k cs) (mem_subs_of_mem List.mem_cons_self)).2 ▸ hl.distinct i
    rw [List.nodup_iff_pairwise_ne, List.pairwise_map] at hd
    rw [ids_cons, ids_nil, List.append_nil, List.nodup_cons, parts_node, hids,
      List.nodup_flatMap]
    exact ⟨hids ▸ h.not_below, fun c hc => ih c hc (h.part hc),
      hd.imp_of_mem fun ha hb hne => h.apart hl ha hb hne⟩

/-- **Siblings in the place of others are displayed if the links say so**: in the list that the
others were in, and in no other list outside of them. -/
theorem rewrites (h : Displays t f X) (hr : Rewrites U V X X') (hn : (ids X).Nodup)
    (hk : ∀ i ∈ ids X, i ∉ ids U → t'.kind i = t.kind i)
    (hsame : ∀ i ∈ ids X, i ∉ ids U → (∀ u ∈ U, u.id ∉ f i) → f' i = f i)
    (hseg : ∀ i as bs, f i = as ++ U.map (·.id) ++ bs → f' i = as ++ V.map (·.id) ++ bs)
    (hV : Displays t' f' V) : Displays t' f' X' := by
  -- siblings next to the others, or next to a node above them
  have apart {Y : List Shape} (hY : subs Y ⊆ subs X) (hdis : (ids Y).Disjoint (ids U)) :
      Displays t' f' Y := by
    have hids {i} (hi : i ∈ ids Y) : i ∈ ids X := by
      obtain ⟨s, hs, rfl⟩ := mem_ids.mp hi
      exact id_mem_ids (hY hs)
    refine (h.of_subset hY).congr (fun i hi => hk i (hids hi) (hdis hi)) fun i hi => ?_
    refine hsame i (hids hi) (hdis hi) fun u hu hui => ?_
    obtain ⟨s, hs, rfl⟩ := mem_ids.mp hi
    rw [(h s (hY hs)).2] at hui
    exact hdis (ids_parts hs (map_id_subset hui)) (id_mem_ids (mem_subs_of_mem hu))
  induction hr with
  | here as bs =>
    simp only [ids_append, List.nodup_append] at hn
    obtain ⟨⟨-, -, hau⟩, -, hb⟩ := hn
    refine append.mpr ⟨append.mpr ⟨apart ?_ ?_, hV⟩, apart ?_ ?_⟩
    · simp
    · exact fun x hx hu => hau x hx x hu rfl
    · simp
    · exact fun x hx hu => hb x (by simp [hu]) x hx rfl
  | deeper as bs i k hr ih =>
    rename_i cs cs'
    obtain ⟨ls, rs, hcs, -⟩ := hr.ids_eq
    have hsub : subs cs ⊆ subs (as ++ Shape.node i k cs :: bs) := fun u hu =>
      mem_subs_of_parts (s := Shape.node i k cs) (by simp) hu
    have hin : i ∈ ids (as ++ Shape.node i k cs :: bs) := by simp
    have hids {j} (hj : j ∈ ids cs) : j ∈ ids (as ++ Shape.node i k cs :: bs) := by
      simp [hj]
    have hd := hn
    simp only [ids_append, ids_cons, id_node, parts_node, List.nodup_append,
      List.nodup_cons] at hd
    obtain ⟨-, ⟨hi, hc, hb, hcb⟩, ha⟩ := hd
    have hU {j} (hj : j ∈ ids U) : j ∈ ids cs := by simp [hcs, hj]
    have hcs' := ih (h.of_subset hsub) hc (fun j hj => hk j (hids hj))
      (fun j hj => hsame j (hids hj)) fun hY => apart (List.Subset.trans hY hsub)
    have hiU : i ∉ ids U := fun hiu => hi (by simp [hU hiu])
    have hnode := h (Shape.node i k cs) (mem_subs_of_mem (by simp))
    simp only [id_node, kind_node, parts_node] at hnode
    refine append.mpr ⟨apart ?_ ?_, cons.mpr ⟨⟨?_, ?_⟩, hcs', apart ?_ ?_⟩⟩
    · simp
    · exact fun x hx hu => ha x hx x (by simp [hU hu]) rfl
    · exact (hk i hin hiU).trans hnode.1
    · rcases hr.heads with ⟨ls, rs, rfl, rfl⟩ | ⟨hheads, s, hs, hall⟩
      · simpa using hseg i _ _ (by simpa using hnode.2)
      · refine (hsame i hin hiU fun u hu hm => ?_).trans (hnode.2.trans hheads.symm)
        rw [hnode.2] at hm
        exact not_mem_map_id hc hs (hall u hu) hm
    · intro u hu
      simp [hu]
    · exact fun x hx hu => hcb x (hU hu) x hx rfl

end Displays

/-! ## The nodes below a node -/

theorem preorder_eq (hf : Linked t f) (h : Displays t f X) {fuel : Nat}
    (hl : (ids X).length ≤ fuel) : t.preorder fuel (X.map (·.id)) = ids X := by
  induction fuel generalizing X with
  | zero =>
    rw [List.length_eq_zero_iff.mp (Nat.le_zero.mp hl), Tree.preorder]
  | succ fuel ih =>
    cases X with
    | nil => simp [Tree.preorder]
    | cons s X =>
      obtain ⟨⟨-, hs⟩, hp, hX⟩ := Displays.cons.mp h
      have hl : (ids (s.parts ++ X)).length ≤ fuel := by simpa using hl
      rw [List.map_cons, Tree.preorder, hf.children, hs, ← List.map_append,
        ih (Displays.append.mpr ⟨hp, hX⟩) hl, ids_cons, ids_append]

theorem length_ids_le (hn : (ids X).Nodup) (hX : ∀ i ∈ ids X, i < t.size) :
    (ids X).length ≤ t.size := by
  have hsub : ids X ⊆ List.range t.size := fun i hi => List.mem_range.mpr (hX i hi)
  simpa using (hn.subperm hsub).length_le

/-! ## Types -/

theorem length_ids_parts_lt {c : Shape} (hc : c ∈ s.parts) :
    (ids [c]).length < (ids [s]).length := by
  obtain ⟨as, bs, hs⟩ := List.append_of_mem hc
  simp only [ids_cons, hs, ids_append, ids_nil, List.length_append, List.length_cons,
    List.append_nil]
  omega

/-- Trees that display the same node with all below it have the same type for it. -/
theorem Displays.typeWithin_eq (h : Displays t f [s]) (hl : Linked t f) (h' : Displays t' f' [s])
    (hl' : Linked t' f') (symbols : SymbolTable) {fuel fuel' : Nat}
    (hf : (ids [s]).length ≤ fuel) (hf' : (ids [s]).length ≤ fuel') :
    t.typeWithin symbols fuel s.id = t'.typeWithin symbols fuel' s.id := by
  induction s using below_induction generalizing fuel fuel' with
  | h i k cs ih =>
    have hs : Shape.node i k cs ∈ subs [Shape.node i k cs] := mem_subs_of_mem List.mem_cons_self
    obtain ⟨hk, hc⟩ := h _ hs
    obtain ⟨hk', hc'⟩ := h' _ hs
    cases fuel with
    | zero => simp at hf
    | succ fuel =>
      cases fuel' with
      | zero => simp at hf'
      | succ fuel' =>
        refine typeWithin_congr symbols (hk.trans hk'.symm) (by rw [hl.first, hl'.first, hc, hc'])
          (by rw [hl.last, hl'.last, hc, hc']) fun _ n hn => ?_
        have hmem : n ∈ cs.map (·.id) := by
          rw [hl.first, hl.last, hc] at hn
          exact hn.elim List.mem_of_mem_head? List.mem_of_getLast?
        obtain ⟨c, hcs, rfl⟩ := List.mem_map.mp hmem
        have hlt := length_ids_parts_lt (s := Shape.node i k cs) hcs
        exact ih c hcs (h.part hcs) (h'.part hcs) (by omega) (by omega)

theorem Displays.made (h : Displays t f [s]) (hl : Linked t f) (hs : s.id < t.size) {i : NodeId}
    (hi : i ∈ ids [s]) : i < t.size := by
  induction s using below_induction with
  | h j k cs ih =>
    rw [ids_cons, ids_nil, List.append_nil, List.mem_cons] at hi
    rcases hi with rfl | hi
    · exact hs
    · obtain ⟨u, hu, rfl⟩ := mem_ids.mp hi
      obtain ⟨c, hc, hu⟩ := mem_subs.mp hu
      have hself : Shape.node j k cs ∈ subs [Shape.node j k cs] :=
        mem_subs_of_mem List.mem_cons_self
      exact ih c hc (h.part hc) (hl.inside (h.mem hself hc)).2
        (mem_ids.mpr ⟨u, by simpa using hu, rfl⟩)

theorem Displays.formatOf_eq (h : Displays t f [s]) (hl : Linked t f) (h' : Displays t' f' [s])
    (hl' : Linked t' f') (hn : (ids [s]).Nodup) (hs : s.id < t.size) (hs' : s.id < t'.size)
    (symbols : SymbolTable) : t.formatOf symbols s.id = t'.formatOf symbols s.id := by
  have hlen := length_ids_le hn fun i hi => h.made hl hs hi
  have hlen' := length_ids_le hn fun i hi => h'.made hl' hs' hi
  have htype : t.typeWithin symbols (t.size + 1) s.id =
      t'.typeWithin symbols (t'.size + 1) s.id :=
    h.typeWithin_eq hl h' hl' symbols (by omega) (by omega)
  have hmem : s ∈ subs [s] := mem_subs_of_mem List.mem_cons_self
  unfold Tree.formatOf Tree.typeOf
  rw [(h s hmem).1, (h' s hmem).1, htype]

end Tree

/-! ## Bodies -/

namespace Shape

variable {W s u a : Shape} {pl : Place} {path : List Shape}

theorem In.sub (h : W.In pl path s) : s ∈ subs [W] := by
  induction h with
  | root => simp
  | part _ hc ih => exact subs_trans ih (mem_subs_of_mem (mem_parts hc))

end Shape

namespace Tree

variable {t : Tree} {f : NodeId → List NodeId} {W : Shape}

theorem Shows.displays (h : t.Shows W) : ∃ f, Forest t f ∧ Displays t f [W] := by
  obtain ⟨f, hf, hW⟩ := h.links
  refine ⟨f, hf, ?_⟩
  have below : ∀ s pl path, W.In pl path s → Displays t f [s] := by
    refine below_induction fun i k cs ih pl path hs => ?_
    refine Displays.cons.mpr ⟨hW _ _ _ hs, fun u hu => ?_, by simp [Displays]⟩
    obtain ⟨c, hc, hu⟩ := mem_subs.mp hu
    obtain ⟨pl', hc'⟩ := exists_place (s := .node i k cs) pl hc
    exact ih c hc _ _ (.part hs hc') u (by simpa using hu)
  exact below W _ _ .root

/-- **The nodes of a body differ.** -/
theorem Shows.nodup (h : t.Shows W) : (ids [W]).Nodup := by
  obtain ⟨f, hf, hd⟩ := h.displays
  exact hd.nodup hf.linked

theorem Displays.shows (h : Displays t f [W]) (hf : Forest t f) (hm : W.id < t.size)
    (hr : t.parent? W.id = none) : t.Shows W :=
  ⟨⟨f, hf, fun _ _ s hs => h s hs.sub⟩, hm, hr⟩

end Tree

end Codegen
