import Codegen.Proofs.Tree.Splice
import Codegen.Tree.Branch

/-!
# What a tree answers

A tree that shows a body answers questions about its nodes as the body does: for the construct of a
node, its neighbours, the chain of branches around it and the parts of a branch.

* `Tree.Shows.kind`, `children`, `first`, `last`, `descendants`: nodes;
* `Tree.Shows.successor`, `predecessor`, `successors`: **chains of branches**;
* `Tree.Shows.condition`, `conditionInitialization`, `body`: the parts of a branch.
-/

namespace Codegen

theorem Shape.exists_followers (k : NodeKind) (ss : List Shape) :
    ∃ rest, ss = followers k ss ++ rest := by
  induction ss generalizing k with
  | nil => exact ⟨[], rfl⟩
  | cons b bs ih =>
    rw [followers]
    split
    · obtain ⟨rest, hrest⟩ := ih b.kind
      exact ⟨rest, congrArg (b :: ·) hrest⟩
    · exact ⟨_, rfl⟩

namespace Tree.Shows

open Shape

variable {t : Tree} {i n j m : NodeId} {k b : NodeKind} {d g : ContextId}
variable {s p : Shape} {X as rest before inside : List Shape}

section Nodes

variable (h : t.Shows (.node i k X))
include h

/-! ## Nodes -/

theorem kind (hs : s ∈ subs X) : t.kind s.id = s.kind := by
  obtain ⟨f, hf, hd⟩ := h.displays
  exact (hd s (by simp [hs])).1

theorem children (hs : s ∈ subs X) : t.children s.id = s.parts.map (·.id) := by
  obtain ⟨f, hf, hd⟩ := h.displays
  rw [hf.children, (hd s (by simp [hs])).2]

theorem first (hs : s ∈ subs X) : t.first? s.id = s.parts.head?.map (·.id) := by
  obtain ⟨f, hf, hd⟩ := h.displays
  rw [hf.first, (hd s (by simp [hs])).2, List.head?_map]

theorem last (hs : s ∈ subs X) : t.last? s.id = s.parts.getLast?.map (·.id) := by
  obtain ⟨f, hf, hd⟩ := h.displays
  rw [hf.last, (hd s (by simp [hs])).2, List.getLast?_map]

theorem nodup_below : (ids X).Nodup := by
  have := h.nodup
  simp only [ids_cons, ids_nil, List.append_nil, parts_node, List.nodup_cons] at this
  exact this.2

theorem length_ids_le : (ids X).length ≤ t.size := by
  obtain ⟨f, hf, hd⟩ := h.displays
  refine Tree.length_ids_le h.nodup_below fun j hj => h.lt_size ?_
  simp [hj]

theorem descendants : t.descendants i = ids X := by
  obtain ⟨f, hf, hd⟩ := h.displays
  have hlength := h.length_ids_le
  obtain ⟨-, hX, -⟩ := Displays.cons.mp hd
  have hi := (hd _ (mem_subs_of_mem List.mem_cons_self)).2
  rw [Tree.descendants, hf.children]
  rw [id_node, parts_node] at hi
  rw [hi]
  exact Tree.preorder_eq hf.linked hX (Nat.le_succ_of_le hlength)

theorem findAll_sublist (p : NodeKind → Bool) : (t.findAll i p).Sublist (ids X) := by
  rw [Tree.findAll, h.descendants]
  exact List.filter_sublist

theorem mem_findAll {p : NodeKind → Bool} :
    n ∈ t.findAll i p ↔ ∃ s ∈ subs X, s.id = n ∧ p s.kind = true := by
  rw [Tree.findAll, h.descendants, List.mem_filter, mem_ids]
  constructor
  · rintro ⟨⟨s, hs, rfl⟩, hp⟩
    exact ⟨s, hs, rfl, h.kind hs ▸ hp⟩
  · rintro ⟨s, hs, rfl, hp⟩
    exact ⟨⟨s, hs, rfl⟩, (h.kind hs).symm ▸ hp⟩

end Nodes

/-! ## Siblings and chains -/

section Siblings

variable (h : t.Shows (.node i k X))
variable (hp : p ∈ subs [.node i k X]) (hparts : p.parts = as ++ s :: rest)
include h hp hparts

omit h in
theorem mem_of_sibling : s ∈ subs X := by
  have hs : s ∈ p.parts := by simp [hparts]
  rw [subs_cons, subs_nil, List.append_nil] at hp
  rcases List.mem_cons.mp hp with rfl | hp
  · exact mem_subs_of_mem hs
  · exact subs_trans hp (mem_subs_of_mem hs)

theorem neighbours : t.previous? s.id = as.getLast?.map (·.id) ∧
    t.next? s.id = rest.head?.map (·.id) := by
  obtain ⟨f, hf, hd⟩ := h.displays
  have hp : f p.id = as.map (·.id) ++ s.id :: rest.map (·.id) := by
    rw [(hd p hp).2, hparts]
    simp
  rw [(hf.siblings hp).1, (hf.siblings hp).2, List.getLast?_map, List.head?_map]
  exact ⟨rfl, rfl⟩

theorem successor (hk : s.kind.isConditional = true) : t.successor? s.id =
    (rest.head?.filter (·.kind.isAlternative)).map (·.id) := by
  rw [Tree.successor?, h.kind (mem_of_sibling hp hparts), if_pos hk, (h.neighbours hp hparts).2]
  cases rest with
  | nil => rfl
  | cons u rest =>
    have hu := h.kind (mem_of_sibling hp
      (show p.parts = (as ++ [s]) ++ u :: rest by simp [hparts]))
    simp only [List.head?_cons, Option.map_some, Option.filter_some, hu]
    split <;> rfl

theorem predecessor : t.predecessor? s.id =
    if s.kind.isAlternative then (as.getLast?.filter (·.kind.isConditional)).map (·.id)
    else none := by
  rw [Tree.predecessor?, h.kind (mem_of_sibling hp hparts), (h.neighbours hp hparts).1]
  rcases List.eq_nil_or_concat as with rfl | ⟨as, u, rfl⟩
  · rfl
  · have hu := h.kind (mem_of_sibling hp
      (show p.parts = as ++ u :: s :: rest by simp [hparts]))
    simp only [List.concat_eq_append, List.getLast?_concat, Option.map_some, Option.filter_some,
      hu]
    congr 1
    split <;> rfl

theorem chain {fuel : Nat} (hfuel : rest.length < fuel) :
    t.chain fuel (t.successor? s.id) = (followers s.kind rest).map (·.id) := by
  induction rest generalizing as s fuel with
  | nil =>
    have hnext := (h.neighbours hp hparts).2
    rw [Tree.successor?, hnext]
    cases fuel <;> simp [Tree.chain, followers]
  | cons u rest ih =>
    have hu : p.parts = (as ++ [s]) ++ u :: rest := by simp [hparts]
    have hkind := h.kind (mem_of_sibling hp hu)
    rw [Tree.successor?, (h.neighbours hp hparts).2, h.kind (mem_of_sibling hp hparts)]
    cases fuel with
    | zero => simp at hfuel
    | succ fuel =>
      simp only [List.head?_cons, Option.map_some, Option.filter_some, hkind, followers]
      by_cases hs : s.kind.isConditional = true
      · by_cases ha : u.kind.isAlternative = true
        · simp only [hs, ha, if_true, Bool.and_self, List.map_cons, Tree.chain]
          rw [ih hu (by simpa using hfuel)]
        · simp [hs, ha, Tree.chain]
      · simp [hs, Tree.chain]

theorem successors : t.successors s.id = (followers s.kind rest).map (·.id) := by
  obtain ⟨f, hf, hd⟩ := h.displays
  refine h.chain hp hparts ?_
  have hlength := hf.length_le p.id
  rw [(hd p hp).2, hparts] at hlength
  simp at hlength
  omega

end Siblings

/-! ## The parts of a branch -/

section Parts

variable (h : t.Shows (.node i k X)) (hk : b.isConditional = true)
variable (hs : Shape.node n b [.node j (.scope d) before, .node m (.scope g) inside] ∈ subs X)
include h hk hs

theorem conditionScope : t.conditionScope? n = some j := by
  have hkind : t.kind n = b := h.kind hs
  have hchild : t.child? n 0 = some j := by
    rw [Tree.child?, show t.children n = _ from h.children hs]
    rfl
  rw [Tree.conditionScope?, hkind]
  cases b <;> first | exact hchild | cases hk

theorem body : t.body? n = some m := by
  have hkind : t.kind n = b := h.kind hs
  have hchild : t.child? n 1 = some m := by
    rw [Tree.child?, show t.children n = _ from h.children hs]
    rfl
  rw [Tree.body?, hkind]
  cases b <;> first | exact hchild | cases hk

theorem condition : t.condition? n = before.getLast?.map (·.id) := by
  rw [Tree.condition?, h.conditionScope hk hs, Option.bind_some]
  exact h.last (s := .node j (.scope d) before) (subs_trans hs (by simp))

theorem conditionInitialization :
    t.conditionInitialization n = (before.map (·.id)).dropLast := by
  have hj : t.children j = before.map (·.id) :=
    h.children (s := .node j (.scope d) before) (subs_trans hs (by simp))
  simp only [Tree.conditionInitialization, h.conditionScope hk hs, hj]

end Parts

theorem body_last {c : ContextId} (h : t.Shows (.node i k X))
    (hs : Shape.node n (.otherwise c) [.node m (.scope g) inside] ∈ subs X) :
    t.body? n = some m := by
  have hchild : t.child? n 0 = some m := by
    rw [Tree.child?, show t.children n = _ from h.children hs]
    rfl
  rw [Tree.body?, show t.kind n = _ from h.kind hs]
  exact hchild

end Tree.Shows

end Codegen
