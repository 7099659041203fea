import Mathlib
import Codegen.Proofs.Evaluation.Meaning
import Codegen.Proofs.Tree.Answers

/-!
# Edits of chains

Some of the siblings that a node has are exchanged for others, and links and constructs of a few
nodes below them change. Each edit leaves less that may be simplified.

* `Shape.openings`: how often siblings and all below them may be simplified at most;
* `Edited`: **an edit of the siblings below a node**;
* `Edited.shows`, `Edited.openings_lt`: what an edit leaves;
* `Tree.Shows.splice_edited`, `demote_edited`, ...: the edits of a chain.
-/

namespace Codegen

open Shape

/-! ## What may be simplified -/

/-- Is the node counted as long as something may be simplified? -/
def NodeKind.isOpen (k : NodeKind) : Bool := k.isReducible || k.isConditional

/-- How often the siblings and all below them may be simplified at most. -/
def Shape.openings (X : List Shape) : Nat := (labels X).countP (·.2.isOpen)

namespace Shape

variable {U V X X' : List Shape}

theorem openings_append : openings (X ++ U) = openings X + openings U := by simp [openings]

theorem openings_cons {s : Shape} :
    openings (s :: X) = (if s.kind.isOpen then 1 else 0) + openings s.parts + openings X := by
  simp only [openings, labels_cons, List.countP_cons, List.countP_append]
  omega

@[simp] theorem openings_nil : openings [] = 0 := by simp [openings]

theorem openings_rewrites (h : Rewrites U V X X') :
    openings X + openings V = openings X' + openings U := by
  obtain ⟨ls, rs, h₁, h₂⟩ := h.labels_eq
  simp only [openings, h₁, h₂, List.countP_append]
  omega

theorem openings_le_length : openings X ≤ (ids X).length := by
  rw [← map_labels, List.length_map]
  exact List.countP_le_length

theorem isStackless_iff : isStackless X = true ↔
    ∀ l ∈ labels X, ∀ x b y, l.2 ≠ .stackAddress x b y := by
  simp only [isStackless, labels, List.all_eq_true, List.mem_map, forall_exists_index, and_imp,
    forall_apply_eq_imp_iff₂]
  refine forall₂_congr fun s _ => ?_
  split <;> simp_all

theorem isStackless_rewrites (h : Rewrites U V X X') (hX : isStackless X = true)
    (hV : isStackless V = true) : isStackless X' = true := by
  obtain ⟨ls, rs, h₁, h₂⟩ := h.labels_eq
  rw [isStackless_iff] at hX hV ⊢
  rw [h₁] at hX
  rw [h₂]
  simp only [List.forall_mem_append] at hX ⊢
  exact ⟨⟨hX.1.1, hV⟩, hX.2⟩

end Shape

/-! ## Constructs -/

theorem Tree.kind_setKind {t : Tree} {n m : NodeId} {k : NodeKind} :
    (t.setKind n k).kind m = if m = n ∧ n < t.size then k else t.kind m := by
  simp only [Tree.setKind, Tree.kind, node_update]
  split <;> rfl

theorem Tree.openedContext?_congr {t t' : Tree} {m : NodeId} (h : t'.kind m = t.kind m) :
    t'.openedContext? m = t.openedContext? m := by
  rw [Tree.openedContext?, h, ← Tree.openedContext?]

/-! ## Edits -/

/-- **An edit of the siblings below a node.** Outside of the siblings only the list of the node
changes; below them there are some nodes whose links and constructs change, too. -/
structure Edited (t t' : Tree) (f f' : NodeId → List NodeId) (p : Shape) (U V : List Shape)
    (touched : List NodeId) : Prop where
  before : Tree.Forest t f
  forest : Tree.Forest t' f'
  size : t'.size = t.size
  list : ∃ as bs, p.parts = as ++ U ++ bs ∧ f' p.id = (as ++ V ++ bs).map (·.id)
  below : touched ⊆ ids U
  kind : ∀ j, j ∉ touched → t'.kind j = t.kind j
  links : ∀ j, j ≠ p.id → j ∉ touched → f' j = f j
  inside : ∀ j ∈ touched, f' j ⊆ ids U
  ids : ids V ⊆ ids U
  displays : ∀ u ∈ subs V, u ∈ subs U ∧ u.id ∉ touched ∨
    t'.kind u.id = u.kind ∧ f' u.id = u.parts.map (·.id)
  contexts : ∀ m, t'.openedContext? m = t.openedContext? m
  openings : openings V < openings U
  direct : isStackless U = true → isStackless V = true

namespace Edited

variable {t t' : Tree} {f f' : NodeId → List NodeId} {p : Shape} {U V X X' : List Shape}
variable {touched : List NodeId} {i : NodeId} {k : NodeKind}

/-- **What a tree shows behind an edit.** -/
theorem shows (he : Edited t t' f f' p U V touched) (h : t.Shows (.node i k X))
    (hp : p ∈ subs [node i k X]) (hU : U ≠ []) (hr : Rewrites U V X X') :
    t'.Shows (.node i k X') := by
  obtain ⟨as, bs, hparts, hlist⟩ := he.list
  have hd := h.displays_of_forest he.before
  have hself : p.id ∉ Shape.ids p.parts := not_mem_ids_parts h.nodup hp
  have hsub : subs U ⊆ subs p.parts := by
    intro u hu
    simp [hparts, hu]
  have hidsU {j} (hj : j ∈ Shape.ids U) : j ∈ Shape.ids p.parts := by simp [hparts, hj]
  have hroot {j} (hj : j ∈ Shape.ids U) : j ≠ i := by
    rintro rfl
    have hn := h.nodup
    simp only [ids_cons, ids_nil, List.append_nil, id_node, parts_node, List.nodup_cons] at hn
    obtain ⟨ls, rs, hX, -⟩ := hr.ids_eq
    exact hn.1 (by simp [hX, hj])
  refine h.exchange he.before hr hU
    (show f p.id = as.map (·.id) ++ U.map (·.id) ++ bs.map (·.id) from ?_)
    he.forest ?_ (Nat.le_of_eq he.size.symm) ?_ ?_ ?_ ?_
  · rw [(hd p hp).2, hparts]
    simp
  · simp [hlist]
  · exact fun j _ hj => he.kind j fun hjt => hj (he.below hjt)
  · exact fun j _ hj hjp => he.links j hjp fun hjt => hj (he.below hjt)
  · intro u hu
    rcases he.displays u hu with ⟨huU, hut⟩ | hnew
    · have hup : u.id ≠ p.id := fun heq => hself (heq ▸ hidsU (id_mem_ids huU))
      rw [he.kind _ hut, he.links _ hup hut]
      exact hd u (subs_trans hp (hsub huU))
    · exact hnew
  · intro q hq
    by_cases hqp : q = p.id
    · rw [hqp, hlist, List.mem_map] at hq
      obtain ⟨u, hu, hui⟩ := hq
      have mem {Y : List Shape} (hY : ∀ y ∈ Y, y ∈ p.parts) (hu : u ∈ Y) : False :=
        h.not_mem_root he.before p.id (hui ▸ hd.mem hp (hY u hu))
      rcases List.mem_append.mp hu with hu | hu
      · rcases List.mem_append.mp hu with hu | hu
        · exact mem (Y := as) (fun y hy => by simp [hparts, hy]) hu
        · exact hroot (he.ids (map_id_subset (List.mem_map_of_mem hu))) hui
      · exact mem (Y := bs) (fun y hy => by simp [hparts, hy]) hu
    · by_cases hqt : q ∈ touched
      · exact hroot (he.inside q hqt hq) rfl
      · rw [he.links q hqp hqt] at hq
        exact h.not_mem_root he.before q hq

/-- **There is less to simplify behind an edit.** -/
theorem openings_lt (he : Edited t t' f f' p U V touched) (hr : Rewrites U V X X') :
    Shape.openings X' < Shape.openings X := by
  have hopen := openings_rewrites hr
  have := he.openings
  omega

end Edited

/-! ## Lists without some of their members -/

theorem diff_eq_self {ns us : List NodeId} (h : ∀ x ∈ ns, x ∉ us) : us.diff ns = us := by
  induction ns with
  | nil => rfl
  | cons n ns ih =>
    rw [List.diff_cons, List.erase_of_not_mem (h n List.mem_cons_self)]
    exact ih fun x hx => h x (List.mem_cons_of_mem _ hx)

theorem diff_middle {as us bs : List NodeId} (h : (as ++ us ++ bs).Nodup) :
    (as ++ us ++ bs).diff us = as ++ bs := by
  induction us with
  | nil => simp
  | cons u us ih =>
    rw [List.append_assoc, List.cons_append, List.nodup_middle, List.nodup_cons, List.mem_append,
      not_or, ← List.append_assoc] at h
    rw [List.diff_cons, List.append_assoc, List.cons_append,
      List.erase_append_right _ h.1.1, List.erase_cons_head, ← List.append_assoc]
    exact ih h.2

theorem Shape.isStackless_subset {U V : List Shape} (h : subs V ⊆ subs U)
    (hU : isStackless U = true) : isStackless V = true := by
  rw [isStackless, List.all_eq_true] at hU ⊢
  exact fun u hu => hU u (h hu)

theorem Shape.openings_le_of_mem {s : Shape} {X : List Shape} (hs : s ∈ subs X) :
    openings [s] ≤ openings X := by
  obtain ⟨X', hr⟩ := exists_rewrites hs []
  have := openings_rewrites hr
  simp only [openings_nil, Nat.add_zero] at this
  omega

namespace Tree.Shows

variable {i : NodeId} {top : NodeKind} {t t' : Tree}
variable {p s : Shape} {X X' as bs fs rest : List Shape} {f : NodeId → List NodeId}

/-! ## Edits of a chain -/

section Edits

variable (h : t.Shows (.node i top X)) (hf : Forest t f)
variable (hp : p ∈ subs [.node i top X])
include h hf hp

/-- Siblings are in the list of their parent only. -/
theorem not_mem_of_sibling (hs : s ∈ p.parts) {j : NodeId} (hj : j ≠ p.id) : s.id ∉ f j :=
  fun hm => hj (hf.parent_unique hm ((h.displays_of_forest hf).mem hp hs))

theorem list_eq : f p.id = p.parts.map (·.id) := ((h.displays_of_forest hf) p hp).2

omit hf in
theorem ne_parent {u : Shape} (hs : s ∈ p.parts) (hu : u ∈ subs [s]) : u.id ≠ p.id := by
  intro he
  refine not_mem_ids_parts h.nodup hp (he ▸ id_mem_ids ?_)
  rw [subs_cons, subs_nil, List.append_nil] at hu
  rcases List.mem_cons.mp hu with rfl | hu
  · exact mem_subs_of_mem hs
  · exact mem_subs_of_parts hs hu

variable (hparts : p.parts = as ++ (s :: fs) ++ bs)
include hparts

theorem diff_list : (f p.id).diff (fs.map (·.id)) = as.map (·.id) ++ s.id :: bs.map (·.id) := by
  have hd := hf.distinct p.id
  have hl : f p.id = (as.map (·.id) ++ [s.id]) ++ fs.map (·.id) ++ bs.map (·.id) := by
    rw [h.list_eq hf hp, hparts]
    simp
  rw [hl] at hd ⊢
  rw [diff_middle hd]
  simp

theorem diff_other {j : NodeId} (hj : j ≠ p.id) : (f j).diff (fs.map (·.id)) = f j := by
  refine diff_eq_self fun x hx => ?_
  obtain ⟨u, hu, rfl⟩ := List.mem_map.mp hx
  exact h.not_mem_of_sibling hf hp (by simp [hparts, hu]) hj

/-- The statements of a body take the place of a branch and of the later branches of its chain. -/
theorem splice_edited {m : NodeId} {g : ContextId} {body : List Shape}
    (hm : Shape.node m (.scope g) body ∈ subs (s :: fs)) (hs : s.kind.isConditional = true) :
    Edited t (((fs.map (·.id)).foldl Tree.remove t).splice s.id m) f
      (Function.update (Function.update (fun q => (f q).diff (fs.map (·.id))) m [])
        p.id ((as ++ body ++ bs).map (·.id)))
      p (s :: fs) body [m] := by
  have hd := h.displays_of_forest hf
  have hrel := ((Tree.Relinked.refl t).removeAll (fs.map (·.id))).splice s.id m
  have hin {u : Shape} (hu : u ∈ subs (s :: fs)) : u ∈ subs [.node i top X] :=
    subs_trans hp (by
      rw [hparts, subs_append, subs_append]
      exact List.mem_append_left _ (List.mem_append_right _ hu))
  have hbody := hd _ (hin hm)
  have hmem {u : Shape} (hu : u ∈ s :: fs) : u ∈ p.parts := by
    rw [hparts]
    exact List.mem_append_left _ (List.mem_append_right _ hu)
  have hmp : m ≠ p.id := by
    obtain ⟨u, hu, hmu⟩ := mem_subs.mp hm
    exact h.ne_parent hp (u := Shape.node m (.scope g) body) (hmem hu) (by simpa using hmu)
  have hother {j : NodeId} (hj : j ≠ p.id) := h.diff_other hf hp hparts hj
  have hlist := h.diff_list hf hp hparts
  have hsm : s.id ∉ (f m).diff (fs.map (·.id)) := by
    rw [hother hmp]
    exact h.not_mem_of_sibling hf hp (hmem List.mem_cons_self) hmp
  have hforest := (hf.removeAll (fs.map (·.id))).splice hlist hmp hsm
  simp only [id_node, parts_node] at hbody
  refine ⟨hf, ?_, hrel.size, ⟨as, bs, hparts, by simp⟩, ?_, fun j _ => hrel.kind j, ?_, ?_, ?_, ?_,
    fun j => Tree.openedContext?_congr (hrel.kind j), ?_, ?_⟩
  · rw [hother hmp, hbody.2, ← List.map_append, ← List.map_append] at hforest
    exact hforest
  · simpa using id_mem_ids hm
  · intro j hj hjm
    rw [Function.update_of_ne hj, Function.update_of_ne (by simpa using hjm), hother hj]
  · intro j hj
    obtain rfl := List.mem_singleton.mp hj
    rw [Function.update_of_ne hmp, Function.update_self]
    simp
  · intro j hj
    obtain ⟨u, hu, rfl⟩ := mem_ids.mp hj
    exact id_mem_ids (subs_trans hm hu)
  · refine fun u hu => .inl ⟨subs_trans hm hu, fun hum => ?_⟩
    refine not_mem_ids_parts h.nodup (hin hm) ?_
    rw [id_node, ← List.mem_singleton.mp hum]
    exact id_mem_ids hu
  · have hle {Y} (hY : Shape.node m (.scope g) body ∈ subs Y) : openings body ≤ openings Y := by
      have := openings_le_of_mem hY
      simp only [openings_cons, openings_nil, parts_node] at this
      omega
    have hopen : s.kind.isOpen = true := by simp [NodeKind.isOpen, hs]
    rw [openings_cons, if_pos hopen]
    rw [subs_cons, List.mem_cons, List.mem_append] at hm
    rcases hm with rfl | hm | hm
    · cases hs
    · have := hle hm
      omega
    · have := hle hm
      omega
  · exact isStackless_subset fun u hu => subs_trans hm hu

omit hparts in
theorem erase_list (hparts : p.parts = as ++ s :: bs) :
    (f p.id).erase s.id = (as ++ bs).map (·.id) := by
  have hd := hf.distinct p.id
  rw [h.list_eq hf hp, hparts, List.map_append, List.map_cons] at hd ⊢
  rw [List.nodup_middle, List.nodup_cons, List.mem_append, not_or] at hd
  rw [List.erase_append_right _ hd.1.1, List.erase_cons_head, List.map_append]

omit hparts in
/-- A node takes the place of some siblings that it is one of, with another construct and with parts
that were below it. -/
theorem rebuilt_edited {f' : NodeId → List NodeId} {U cs cs' : List Shape} {n : NodeId}
    {b b' : NodeKind} (hparts : p.parts = as ++ U ++ bs) (hn : .node n b cs ∈ U)
    (hcs : subs cs' ⊆ subs cs) (hf' : Forest t' f') (hsize : t'.size = t.size)
    (hkind : ∀ q, t'.kind q = if q = n then b' else t.kind q)
    (hlist : f' p.id = (as ++ .node n b' cs' :: bs).map (·.id)) (hlist' : f' n = cs'.map (·.id))
    (hlinks : ∀ q, q ≠ p.id → q ≠ n → f' q = f q)
    (hcontext : t'.openedContext? n = t.openedContext? n)
    (hopen : openings [.node n b' cs'] < openings U)
    (hdirect : isStackless [.node n b' []] = true) :
    Edited t t' f f' p U [.node n b' cs'] [n] := by
  have hbelow {u : Shape} (hu : u ∈ subs cs') : u ∈ subs U := mem_subs_of_parts hn (hcs hu)
  have hids : ids cs' ⊆ ids U := by
    intro q hq
    obtain ⟨u, hu, rfl⟩ := mem_ids.mp hq
    exact id_mem_ids (hbelow hu)
  have hnU : n ∈ ids U := id_mem_ids (mem_subs_of_mem hn)
  have hnode : .node n b cs ∈ subs [.node i top X] :=
    subs_trans hp (mem_subs_of_mem (by simp [hparts, hn]))
  refine ⟨hf, hf', hsize, ⟨as, bs, hparts, by simp [hlist]⟩, by simpa using hnU,
    fun q hq => by rw [hkind, if_neg (by simpa using hq)],
    fun q hqp hq => hlinks q hqp (by simpa using hq), ?_, ?_, ?_, ?_, hopen, ?_⟩
  · intro q hq
    obtain rfl := List.mem_singleton.mp hq
    rw [hlist']
    exact fun x hx => hids (map_id_subset hx)
  · rw [ids_cons, ids_nil, List.append_nil, id_node, parts_node]
    exact List.cons_subset.mpr ⟨hnU, hids⟩
  · intro u hu
    rw [subs_cons, subs_nil, List.append_nil, parts_node] at hu
    rcases List.mem_cons.mp hu with rfl | hu
    · exact .inr ⟨by simp [hkind], hlist'⟩
    · refine .inl ⟨hbelow hu, fun hun => ?_⟩
      refine not_mem_ids_parts h.nodup hnode ?_
      rw [id_node, ← List.mem_singleton.mp hun]
      exact id_mem_ids (hcs hu)
  · intro q
    by_cases hq : q = n
    · rw [hq, hcontext]
    · exact Tree.openedContext?_congr (by rw [hkind, if_neg hq])
  · intro hU
    rw [isStackless, List.all_eq_true] at hU hdirect ⊢
    intro u hu
    rw [subs_cons, subs_nil, List.append_nil, parts_node] at hu
    rcases List.mem_cons.mp hu with rfl | hu
    · exact hdirect (.node n b' []) (mem_subs_of_mem List.mem_cons_self)
    · exact hU u (hbelow hu)

omit hparts in
/-- A branch becomes the last one of its chain. -/
theorem demote_edited {n j m : NodeId} {k : ContextId} {d g : ContextId} {before body : List Shape}
    (hparts : p.parts = as ++ (Shape.node n (.elseIf k)
      [.node j (.scope d) before, .node m (.scope g) body] :: fs) ++ bs) :
    Edited t ((((fs.map (·.id)).foldl Tree.remove t).remove j).setKind n (.otherwise k)) f
      (Function.update (Function.update f n [m]) p.id
        ((as ++ .node n (.otherwise k) [.node m (.scope g) body] :: bs).map (·.id)))
      p (.node n (.elseIf k) [.node j (.scope d) before, .node m (.scope g) body] :: fs)
      [.node n (.otherwise k) [.node m (.scope g) body]] [n] := by
  have hmem : Shape.node n (.elseIf k) [.node j (.scope d) before, .node m (.scope g) body] ∈
      p.parts := by simp [hparts]
  have hs := subs_trans hp (mem_subs_of_mem hmem)
  have hnode := h.displays_of_forest hf _ hs
  simp only [id_node, kind_node, parts_node, List.map_cons, List.map_nil] at hnode
  have hnp : n ≠ p.id := h.ne_parent hp hmem (mem_subs_of_mem List.mem_cons_self)
  have hjn {q : NodeId} (hq : q ≠ n) : j ∉ f q := fun hm =>
    hq (hf.parent_unique hm (by simp [hnode.2]))
  have hother {q : NodeId} (hq : q ≠ p.id) := h.diff_other hf hp hparts hq
  have hlist := h.diff_list hf hp hparts
  rw [id_node] at hlist
  have hforest := ((hf.removeAll (fs.map (·.id))).remove j).setKind n (.otherwise k)
  have hrel := ((Tree.Relinked.refl t).removeAll (fs.map (·.id))).remove j
  have hlt : n < t.size := h.lt_size (id_mem_ids hs)
  have hkind (q : NodeId) : ((((fs.map (·.id)).foldl Tree.remove t).remove j).setKind n
      (.otherwise k)).kind q = if q = n then .otherwise k else t.kind q := by
    rw [Tree.kind_setKind, hrel.kind, hrel.size]
    simp [hlt]
  refine h.rebuilt_edited hf hp hparts List.mem_cons_self (fun u hu => ?_) ?_ ?_ hkind
    (Function.update_self ..) ?_ (fun q hqp hqn => ?_) ?_ ?_ rfl
  · simp only [subs_cons, List.mem_cons, List.mem_append] at hu ⊢
    tauto
  · convert hforest using 1
    funext q
    by_cases hqp : q = p.id
    · subst hqp
      have hj : j ∉ as.map (·.id) ++ n :: bs.map (·.id) := by
        rw [← hlist]
        exact fun hm => hjn hnp.symm (List.diff_subset _ _ hm)
      rw [Function.update_self, hlist, List.erase_of_not_mem hj]
      simp
    · rw [Function.update_of_ne hqp, hother hqp]
      by_cases hqn : q = n
      · rw [hqn, Function.update_self, hnode.2]
        simp
      · rw [Function.update_of_ne hqn, List.erase_of_not_mem (hjn hqn)]
  · rw [Tree.setKind, Tree.size_update, hrel.size]
  · rw [Function.update_of_ne hnp, Function.update_self]
    rfl
  · rw [Function.update_of_ne hqp, Function.update_of_ne hqn]
  · simp [Tree.openedContext?, hkind, hnode.1]
  · simp only [openings_cons, openings_nil, kind_node, parts_node]
    simp [NodeKind.isOpen, NodeKind.isReducible, NodeKind.isConditional]
    omega

omit hparts in
/-- A branch goes, and the one after it begins the chain. -/
theorem promote_edited {r : NodeId} {k : ContextId} {cs : List Shape}
    (hs : s.kind.isConditional = true)
    (hparts : p.parts = as ++ [s, .node r (.elseIf k) cs] ++ bs) :
    Edited t ((t.setKind r (.ifBranch k)).remove s.id) f
      (Function.update f p.id ((as ++ .node r (.ifBranch k) cs :: bs).map (·.id)))
      p [s, .node r (.elseIf k) cs] [.node r (.ifBranch k) cs] [r] := by
  have hmem : Shape.node r (.elseIf k) cs ∈ p.parts := by simp [hparts]
  have hr := subs_trans hp (mem_subs_of_mem hmem)
  have hnode := h.displays_of_forest hf _ hr
  simp only [id_node, kind_node, parts_node] at hnode
  have hrp : r ≠ p.id := h.ne_parent hp hmem (mem_subs_of_mem List.mem_cons_self)
  have hlt : r < t.size := h.lt_size (id_mem_ids hr)
  have hrel := (Tree.Relinked.refl (t.setKind r (.ifBranch k))).remove s.id
  have hkind (q : NodeId) : ((t.setKind r (.ifBranch k)).remove s.id).kind q =
      if q = r then .ifBranch k else t.kind q := by
    rw [hrel.kind, Tree.kind_setKind]
    simp [hlt]
  refine h.rebuilt_edited hf hp hparts (List.mem_cons_of_mem _ List.mem_cons_self)
    (List.Subset.refl _) ?_ ?_ hkind (Function.update_self ..) ?_
    (fun q hqp _ => Function.update_of_ne hqp _ _) ?_ ?_ rfl
  · have hlist := h.erase_list hf hp
      (show p.parts = as ++ s :: (.node r (.elseIf k) cs :: bs) by simp [hparts])
    convert (hf.setKind r (.ifBranch k)).remove s.id using 1
    funext q
    by_cases hqp : q = p.id
    · subst hqp
      rw [Function.update_self, hlist]
      simp
    · rw [Function.update_of_ne hqp,
        List.erase_of_not_mem (h.not_mem_of_sibling hf hp (by simp [hparts]) hqp)]
  · rw [hrel.size, Tree.setKind, Tree.size_update]
  · rw [Function.update_of_ne hrp, hnode.2]
  · simp [Tree.openedContext?, hkind, hnode.1]
  · simp only [openings_cons, openings_nil, kind_node, parts_node, NodeKind.isOpen, hs]
    simp only [NodeKind.isReducible, NodeKind.isConditional, Bool.or_true, if_true, Nat.add_zero]
    omega

omit hparts in
theorem remove_edited (hs : s.kind.isConditional = true) (hparts : p.parts = as ++ [s] ++ bs) :
    Edited t (t.remove s.id) f (Function.update f p.id ((as ++ bs).map (·.id))) p [s] [] [] := by
  have hlist := h.erase_list hf hp (show p.parts = as ++ s :: bs by simp [hparts])
  have hrel := (Tree.Relinked.refl t).remove s.id
  refine ⟨hf, ?_, hrel.size, ⟨as, bs, hparts, by simp⟩, by simp, fun j _ => hrel.kind j,
    fun q hqp _ => Function.update_of_ne hqp _ _, by simp, by simp, by simp,
    fun j => Tree.openedContext?_congr (hrel.kind j), ?_, by simp [isStackless]⟩
  · convert hf.remove s.id using 1
    funext q
    by_cases hqp : q = p.id
    · rw [hqp, Function.update_self, hlist]
    · rw [Function.update_of_ne hqp,
        List.erase_of_not_mem (h.not_mem_of_sibling hf hp (by simp [hparts]) hqp)]
  · simp only [openings_cons, openings_nil, NodeKind.isOpen, hs, Bool.or_true, if_true]
    omega

end Edits

end Tree.Shows

end Codegen
