import Codegen.Proofs.Tree.Shape

/-!
# Shapes read off trees

The shape of a body can be read off a tree, and whether the tree shows it can be tested.

* `Tree.shape`: the shape at a node;
* `Tree.isForest`, `Tree.forest_of_isForest`: a test of links;
* `Shape.all`, `Shape.of_all`: a test of all parts of a shape;
* `Tree.isShown`, `Tree.shows_of_isShown`: **a test whether a tree shows a shape**;
* `Shape.isLayered`, `Shape.layered_of_isLayered`: a test whether expressions contain no statements.
-/

namespace Codegen

/-! ## Links -/

namespace Tree

variable {t : Tree}

/-- Are the links of a node consistent with its children? -/
def isLinked (t : Tree) (p : NodeId) : Bool :=
  let cs := t.children p
  cs.Nodup && t.first? p == cs.head? && t.last? p == cs.getLast? &&
    (cs.all fun m => m < t.size && t.parent? m == some p) &&
    (List.range cs.length).all fun i => cs[i]?.all fun m =>
      t.previous? m == (cs.take i).getLast? && t.next? m == (cs.drop (i + 1)).head?

/-- Is a node a child of its parent? A node without a parent has no neighbours. -/
def isSeated (t : Tree) (m : NodeId) : Bool :=
  match t.parent? m with
  | some p => p < t.size && (t.children p).contains m
  | none => t.previous? m == none && t.next? m == none

/-- Are all links of a tree consistent? -/
def isForest (t : Tree) : Bool :=
  (List.range t.size).all fun n => t.isLinked n && t.isSeated n

theorem children_of_size_le {p : NodeId} (h : t.size ≤ p) : t.children p = [] := by
  have h1 : t.first? p = none := by
    rw [first?, node_of_size_le h]
    rfl
  rw [children, h1]
  rfl

theorem forest_of_isForest (h : t.isForest) : Forest t t.children := by
  have hall : ∀ n < t.size, t.isLinked n = true ∧ t.isSeated n = true := by
    simpa [isForest] using h
  have hmade {p m : NodeId} (hm : m ∈ t.children p) : p < t.size := by
    by_contra hp
    simp [children_of_size_le (Nat.le_of_not_lt hp)] at hm
  have hlinked {p : NodeId} (hp : p < t.size) := (hall p hp).1
  simp only [isLinked, Bool.and_eq_true, List.all_eq_true, beq_iff_eq, decide_eq_true_eq,
    List.mem_range] at hlinked
  have hnone {p : NodeId} (hp : t.size ≤ p) : t.node p = default := node_of_size_le hp
  constructor
  · exact fun hm => ⟨hmade hm, ((hlinked (hmade hm)).1.2 _ hm).1⟩
  · refine fun {p m} => ⟨fun hm => ?_, fun hm => ((hlinked (hmade hm)).1.2 _ hm).2⟩
    have hlt : m < t.size := by
      by_contra hge
      rw [parent?, hnone (Nat.le_of_not_lt hge)] at hm
      cases hm
    have hseat := (hall m hlt).2
    simp only [isSeated, hm, Bool.and_eq_true, List.contains_iff_mem] at hseat
    exact hseat.2
  · intro p
    by_cases hp : p < t.size
    · exact (hlinked hp).1.1.1.1
    · simp [children_of_size_le (Nat.le_of_not_lt hp)]
  · intro p
    by_cases hp : p < t.size
    · exact (hlinked hp).1.1.1.2
    · rw [children_of_size_le (Nat.le_of_not_lt hp), first?, hnone (Nat.le_of_not_lt hp)]
      rfl
  · intro p
    by_cases hp : p < t.size
    · exact (hlinked hp).1.1.2
    · rw [children_of_size_le (Nat.le_of_not_lt hp), last?, hnone (Nat.le_of_not_lt hp)]
      rfl
  · intro p m as bs hcs
    have hp : p < t.size := hmade (m := m) (by simp [hcs])
    have hm := (hlinked hp).2 as.length (by simp [hcs])
    simpa [hcs] using hm
  · intro m hm
    by_cases hlt : m < t.size
    · have hseat := (hall m hlt).2
      simpa [isSeated, hm] using hseat
    · rw [previous?, next?, hnone (Nat.le_of_not_lt hlt)]
      exact ⟨rfl, rfl⟩

end Tree

/-! ## Parts -/

namespace Shape

variable {W s : Shape} {pl : Place} {path : List Shape} {check : Place → Shape → Bool} {fuel : Nat}

/-- Do all parts down to a depth, with their places, pass a test? Deeper ones do not. -/
def all (check : Place → Shape → Bool) : Nat → Place → Shape → Bool
  | 0, _, _ => false
  | fuel + 1, pl, s => check pl s && (s.places pl).all fun c => all check fuel c.1 c.2

theorem of_all (h : all check fuel .plain W) (hs : W.In pl path s) : check pl s = true := by
  have below : ∃ fuel, all check fuel pl s = true := by
    induction hs with
    | root => exact ⟨fuel, h⟩
    | part _ hc ih =>
      obtain ⟨_ | fuel, ih⟩ := ih
      · simp [all] at ih
      · simp only [all, Bool.and_eq_true, List.all_eq_true] at ih
        exact ⟨fuel, ih.2 _ hc⟩
  obtain ⟨_ | fuel, h⟩ := below
  · simp [all] at h
  · simp only [all, Bool.and_eq_true] at h
    exact h.1

/-- Are the parts right below one what they should be at their places? -/
def isLayeredAt (pl : Place) (s : Shape) : Bool :=
  (s.places pl).all fun c =>
    (s.kind.isStatement && s.kind != .ret || !c.2.kind.isStatement) &&
      match c.1 with
      | .plain => true
      | .scope => match c.2.kind with
        | .scope _ => true
        | _ => false
      | .condition => !c.2.kind.isStatement

/-- Do expressions contain no statements? -/
def isLayered (fuel : Nat) (W : Shape) : Bool := all isLayeredAt fuel .plain W

theorem layered_of_isLayered (h : W.isLayered fuel) : W.Layered := by
  have hall {pl pl' path s c} (hs : W.In pl path s) (hc : (pl', c) ∈ s.places pl) := by
    have hs := of_all h hs
    rw [isLayeredAt, List.all_eq_true] at hs
    exact hs _ hc
  constructor
  · intro pl path p c hc hp
    cases hc with
    | part hs hc =>
      have h := hall hs hc
      grind
  · intro path c hc
    cases hc with
    | part hs hc =>
      have h := hall hs hc
      grind
  · intro path c hc
    cases hc with
    | part hs hc =>
      have h := hall hs hc
      grind

end Shape

namespace Tree

variable {t : Tree} {W : Shape} {fuel : Nat}

/-- The shape at a node, down to a depth. -/
def shape (t : Tree) : Nat → NodeId → Shape
  | 0, n => .node n (t.kind n) []
  | fuel + 1, n => .node n (t.kind n) ((t.children n).map (t.shape fuel))

/-- Does the tree show the shape? -/
def isShown (t : Tree) (fuel : Nat) (W : Shape) : Bool :=
  t.isForest && W.id < t.size && t.parent? W.id == none &&
    Shape.all (fun _ s => t.kind s.id == s.kind && t.children s.id == s.parts.map (·.id)) fuel
      .plain W

theorem shows_of_isShown (h : t.isShown fuel W) : t.Shows W := by
  simp only [isShown, Bool.and_eq_true, decide_eq_true_eq, beq_iff_eq] at h
  obtain ⟨⟨⟨hf, hm⟩, hr⟩, hall⟩ := h
  refine ⟨⟨t.children, forest_of_isForest hf, fun pl path s hs => ?_⟩, hm, hr⟩
  simpa using Shape.of_all hall hs

end Tree

end Codegen
