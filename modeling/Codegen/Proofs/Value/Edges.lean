import Codegen.Proofs.Value.Arena
import Mathlib.Data.List.Nodup

/-!
# Edges between values

The edges of a cell name other cells, each at most once, and say whether changes travel there. Of
all changes of an arena only a join touches edges: it connects each member of one system with each
member of the other one.

* `Arena.edge?`: is there an edge from one value to another, and does it send?
* `Arena.OneEach`: **no cell has two edges to the same one**;
* `Arena.SameEdges`: what all other changes keep;
* `connect_spec`, `connectEach_spec`: edges that are set one after the other;
* `connectAll_neighbours`, `connectAll_crossing`, `connectAll_edge?`: **the edges between two lists
  of values**.
-/

namespace Codegen.Arena

variable {a b : Arena} {v w x y : ValueId} {f : Cell → Cell}

/-! ## Reading edges -/

/-- The edges of a value. -/
def edges (a : Arena) (v : ValueId) : List Edge := (a.cell? v).elim [] (·.edges)

/-- The edge from one value to another: does it send? -/
def edge? (a : Arena) (v w : ValueId) : Option Bool :=
  ((a.edges v).find? (·.target == w)).map (·.sending)

/-- **No cell has two edges to the same one.** -/
def OneEach (a : Arena) : Prop := ∀ v, (a.neighbours v).Nodup

theorem neighbours_eq (a : Arena) (v : ValueId) : a.neighbours v = (a.edges v).map (·.target) := by
  unfold neighbours edges
  cases a.cell? v <;> rfl

theorem receivers_eq (a : Arena) (v : ValueId) :
    a.receivers v = ((a.edges v).filter (·.sending)).map (·.target) := by
  unfold receivers edges
  cases a.cell? v <;> rfl

theorem mem_neighbours_iff : w ∈ a.neighbours v ↔ (a.edge? v w).isSome := by
  simp [neighbours_eq, edge?]

theorem lt_size_of_mem_neighbours (h : w ∈ a.neighbours v) : v < a.size := by
  by_contra hv
  have hcell : a.cell? v = none := Array.getElem?_eq_none (Nat.not_lt.mp hv)
  simp [neighbours, hcell] at h

theorem mem_receivers_iff (ha : a.OneEach) : w ∈ a.receivers v ↔ a.edge? v w = some true := by
  have hnodup := ha v
  rw [neighbours_eq] at hnodup
  rw [receivers_eq, edge?]
  generalize a.edges v = es at hnodup
  induction es with
  | nil => simp
  | cons e es ih =>
    rw [List.map_cons, List.nodup_cons] at hnodup
    by_cases he : e.target = w
    · have hw : w ∉ (es.filter (·.sending)).map (·.target) := by
        rw [← he]
        exact fun hm => hnodup.1 (List.map_subset _ (List.filter_subset_self _) hm)
      cases hs : e.sending <;> simp_all
    · rw [List.find?_cons_of_neg (by simpa using he)]
      refine Iff.trans ?_ (ih hnodup.2)
      cases hs : e.sending <;> simp [hs, Ne.symm he]

theorem nodup_receivers (ha : a.OneEach) (v : ValueId) : (a.receivers v).Nodup := by
  have hnodup := ha v
  rw [neighbours_eq] at hnodup
  rw [receivers_eq]
  exact hnodup.sublist (List.filter_sublist.map _)

theorem receivers_subset (a : Arena) (v : ValueId) : a.receivers v ⊆ a.neighbours v := by
  rw [receivers_eq, neighbours_eq]
  exact List.map_subset _ (List.filter_subset_self _)

/-! ## Changes that touch no edge -/

/-- The second arena has the cells and the edges of the first one. -/
structure SameEdges (a b : Arena) : Prop where
  size : a.size ≤ b.size
  edges : ∀ v, b.edges v = a.edges v

namespace SameEdges

variable {c : Arena}

theorem refl (a : Arena) : a.SameEdges a := ⟨Nat.le_refl _, fun _ => rfl⟩

theorem trans (h : a.SameEdges b) (h' : b.SameEdges c) : a.SameEdges c :=
  ⟨Nat.le_trans h.size h'.size, fun v => (h'.edges v).trans (h.edges v)⟩

theorem neighbours (h : a.SameEdges b) (v : ValueId) : b.neighbours v = a.neighbours v := by
  rw [neighbours_eq, neighbours_eq, h.edges]

theorem edge? (h : a.SameEdges b) (v w : ValueId) : b.edge? v w = a.edge? v w := by
  rw [Arena.edge?, Arena.edge?, h.edges]

end SameEdges

theorem edges_modify (f : Cell → Cell) (w : ValueId) :
    (⟨a.cells.modify v f⟩ : Arena).edges w =
      if w = v then (a.cell? w).elim [] fun c => (f c).edges else a.edges w := by
  rw [edges, cell?_modify]
  by_cases hw : w = v
  · cases a.cell? w <;> simp [hw]
  · simp [edges, hw]

theorem size_modify (f : Cell → Cell) : (⟨a.cells.modify v f⟩ : Arena).size = a.size := by
  simp [size]

theorem update_sameEdges (h : a.update v f = .ok b) (hf : ∀ c, (f c).edges = c.edges) :
    a.SameEdges b := by
  obtain ⟨-, rfl⟩ := update_eq_ok.mp h
  refine ⟨Nat.le_of_eq (size_modify f).symm, fun w => ?_⟩
  rw [edges_modify]
  split
  · simp only [hf]
    rfl
  · rfl

theorem updateAll_sameEdges {vs : List ValueId} (h : a.updateAll vs f = .ok b)
    (hf : ∀ c, (f c).edges = c.edges) : a.SameEdges b :=
  foldlM_keeps a.SameEdges (fun _ _ _ _ hb hc => hb.trans (update_sameEdges hc hf)) (.refl a) h

theorem useAt_sameEdges {p : Int} (h : a.useAt v p = .ok b) : a.SameEdges b :=
  useAll_keeps (fun _ _ _ _ hb hc => hb.trans (update_sameEdges hc fun _ => rfl)) (.refl a) h

theorem create_sameEdges (a : Arena) (h : Handle) (k : Format) : a.SameEdges (a.create h k).2 := by
  refine ⟨by simp [create, size], fun w => ?_⟩
  simp only [edges, create, cell?, Array.getElem?_push]
  split
  next hw =>
    subst hw
    simp
  next => rfl

theorem restoreHandles_sameEdges (a : Arena) (hs : Array Handle) (keep : ValueId → Bool) :
    a.SameEdges (a.restoreHandles hs keep) := by
  refine ⟨by simp [restoreHandles, size], fun w => ?_⟩
  simp only [edges, cell?, restoreHandles, Array.getElem?_mapIdx]
  cases a.cells[w]? with
  | none => rfl
  | some c =>
    simp only [Option.map_some, Option.elim_some]
    split <;> try split
    all_goals rfl

/-! ## New edges -/

/-- An edge is added to a list of edges, or overwritten there. -/
def putEdge (es : List Edge) (w : ValueId) (s : Bool) : List Edge :=
  if es.any (·.target == w) then es.map fun e => if e.target = w then { e with sending := s } else e
  else es ++ [⟨w, s⟩]

theorem connect_eq (a : Arena) (v w : ValueId) (s : Bool) :
    a.connect v w s = a.update v fun c => { c with edges := putEdge c.edges w s } := rfl

theorem targets_putEdge (es : List Edge) (w : ValueId) (s : Bool) :
    (putEdge es w s).map (·.target) =
      if w ∈ es.map (·.target) then es.map (·.target) else es.map (·.target) ++ [w] := by
  have hany : es.any (·.target == w) = true ↔ w ∈ es.map (·.target) := by simp
  unfold putEdge
  by_cases hw : w ∈ es.map (·.target)
  · rw [if_pos (hany.mpr hw), if_pos hw, List.map_map]
    refine List.map_congr_left fun e _ => ?_
    simp only [Function.comp]
    split <;> rfl
  · rw [if_neg (fun h => hw (hany.mp h)), if_neg hw, List.map_append]
    rfl

theorem find?_putEdge (es : List Edge) (w y : ValueId) (s : Bool) :
    ((putEdge es w s).find? (·.target == y)).map (·.sending) =
      if y = w then some s else (es.find? (·.target == y)).map (·.sending) := by
  unfold putEdge
  split
  next hw =>
    have htarget : ((fun e : Edge => e.target == y) ∘
        fun e => if e.target = w then { e with sending := s } else e) = (·.target == y) := by
      funext e
      simp only [Function.comp]
      split <;> rfl
    rw [List.find?_map, htarget]
    cases he : es.find? (·.target == y) with
    | none =>
      have hy : y ≠ w := by
        rintro rfl
        obtain ⟨e, hmem, hew⟩ := List.any_eq_true.mp hw
        exact List.find?_eq_none.mp he e hmem hew
      simp [hy]
    | some e =>
      obtain rfl : e.target = y := by simpa using List.find?_some he
      by_cases hy : e.target = w <;> simp [hy]
  next hw =>
    have hnone : es.find? (·.target == w) = none := by
      refine List.find?_eq_none.mpr fun e he hew => hw (List.any_eq_true.mpr ⟨e, he, hew⟩)
    rw [List.find?_append]
    by_cases hy : y = w
    · subst hy
      simp [hnone]
    · simp [hy, Ne.symm hy]

theorem connect_spec {s : Bool} (h : a.connect v w s = .ok b) :
    b.size = a.size ∧ (a.OneEach → b.OneEach) ∧
      ∀ x y, b.edge? x y = if x = v ∧ y = w then some s else a.edge? x y := by
  rw [connect_eq] at h
  obtain ⟨hv, rfl⟩ := update_eq_ok.mp h
  have hcell : a.cell? v = some a.cells[v] := Array.getElem?_eq_getElem hv
  have hedges (x : ValueId) : (⟨a.cells.modify v fun c =>
      { c with edges := putEdge c.edges w s }⟩ : Arena).edges x =
        if x = v then putEdge (a.edges v) w s else a.edges x := by
    rw [edges_modify]
    split
    next hx => simp [hx, hcell, edges]
    next => rfl
  refine ⟨size_modify _, fun ha x => ?_, fun x y => ?_⟩
  · rw [neighbours_eq, hedges]
    have hx := ha x
    rw [neighbours_eq] at hx
    split
    next hxv =>
      subst hxv
      rw [targets_putEdge]
      split
      · exact hx
      next hw => exact List.nodup_append.mpr ⟨hx, List.nodup_singleton w, by grind⟩
    next => exact hx
  · rw [edge?, hedges, edge?]
    by_cases hx : x = v
    · simp [hx, find?_putEdge]
    · simp [hx]

/-! ## Edges between two lists -/

/-- The edges that connect each of some values with each of some others, in both directions. -/
def crossing (vs ws : List ValueId) (send receive : Bool) : List (ValueId × ValueId × Bool) :=
  vs.flatMap fun v => ws.flatMap fun w => if v = w then [] else [(v, w, send), (w, v, receive)]

/-- Sets the listed edges, one after the other. -/
def connectEach (a : Arena) (L : List (ValueId × ValueId × Bool)) : Except Fault Arena :=
  L.foldlM (fun a l => a.connect l.1 l.2.1 l.2.2) a

theorem foldlM_flatMap {ε α β γ : Type} (xs : List α) (g : α → List β) (k : γ → β → Except ε γ)
    (c : γ) : (xs.flatMap g).foldlM k c = xs.foldlM (fun c x => (g x).foldlM k c) c := by
  induction xs generalizing c with
  | nil => rfl
  | cons x xs ih =>
    rw [List.flatMap_cons, List.foldlM_append, List.foldlM_cons]
    congr 1
    funext c
    exact ih c

theorem connectAll_eq (a : Arena) (vs ws : List ValueId) (send receive : Bool) :
    a.connectAll vs ws send receive = a.connectEach (crossing vs ws send receive) := by
  unfold connectAll connectEach crossing
  rw [foldlM_flatMap]
  congr 1
  funext a v
  rw [foldlM_flatMap]
  congr 1
  funext a w
  split
  · rfl
  · simp

variable {vs ws : List ValueId} {send receive s : Bool} {L : List (ValueId × ValueId × Bool)}

theorem mem_crossing : (x, y, s) ∈ crossing vs ws send receive ↔
    x ≠ y ∧ (x ∈ vs ∧ y ∈ ws ∧ s = send ∨ y ∈ vs ∧ x ∈ ws ∧ s = receive) := by
  simp only [crossing, List.mem_flatMap]
  constructor
  · rintro ⟨v, hv, w, hw, h⟩
    split at h
    · cases h
    next hne => grind
  · rintro ⟨hne, ⟨hx, hy, rfl⟩ | ⟨hy, hx, rfl⟩⟩
    · exact ⟨x, hx, y, hy, by simp [hne]⟩
    · exact ⟨y, hy, x, hx, by simp [Ne.symm hne]⟩

theorem exists_connectEach (hL : ∀ l ∈ L, l.1 < a.size) : ∃ b, a.connectEach L = .ok b := by
  induction L generalizing a with
  | nil => exact ⟨a, rfl⟩
  | cons l L ih =>
    have hb : a.connect l.1 l.2.1 l.2.2 = .ok _ := if_pos (hL l List.mem_cons_self)
    have hsize := (connect_spec hb).1
    obtain ⟨c, hc⟩ := ih (fun m hm => hsize ▸ hL m (List.mem_cons_of_mem _ hm))
    exact ⟨c, by rw [connectEach, List.foldlM_cons, hb]; exact hc⟩

/-- **Edges that are set one after the other**: each edge is not listed and stays, or is as one of
its listings says. -/
theorem connectEach_spec (h : a.connectEach L = .ok b) :
    b.size = a.size ∧ (a.OneEach → b.OneEach) ∧
      ∀ x y, (∀ s, (x, y, s) ∉ L) ∧ b.edge? x y = a.edge? x y ∨
        ∃ s, (x, y, s) ∈ L ∧ b.edge? x y = some s := by
  induction L generalizing a with
  | nil =>
    obtain rfl : a = b := pure_eq_ok.mp h
    simp
  | cons l L ih =>
    rw [connectEach, List.foldlM_cons, bind_eq_ok] at h
    obtain ⟨a₁, h₁, h₂⟩ := h
    obtain ⟨hsize, hone, hedge⟩ := connect_spec h₁
    obtain ⟨hsize', hone', hrest⟩ := ih h₂
    refine ⟨hsize'.trans hsize, fun ha => hone' (hone ha), fun x y => ?_⟩
    obtain ⟨hL, hxy⟩ | ⟨s, hs, hxy⟩ := hrest x y
    · by_cases hl : x = l.1 ∧ y = l.2.1
      · obtain ⟨rfl, rfl⟩ := hl
        exact .inr ⟨l.2.2, List.mem_cons_self, by rw [hxy, hedge, if_pos ⟨rfl, rfl⟩]⟩
      · refine .inl ⟨fun s hs => ?_, by rw [hxy, hedge, if_neg hl]⟩
        rcases List.mem_cons.mp hs with rfl | hs
        · exact hl ⟨rfl, rfl⟩
        · exact hL s hs
    · exact .inr ⟨s, List.mem_cons_of_mem _ hs, hxy⟩

theorem exists_connectAll (hv : ∀ v ∈ vs, v < a.size) (hw : ∀ w ∈ ws, w < a.size) :
    ∃ b, a.connectAll vs ws send receive = .ok b := by
  rw [connectAll_eq]
  refine exists_connectEach fun l hl => ?_
  obtain ⟨-, ⟨h, -, -⟩ | ⟨-, h, -⟩⟩ := mem_crossing.mp hl
  · exact hv _ h
  · exact hw _ h

theorem connectAll_neighbours (h : a.connectAll vs ws send receive = .ok b) :
    y ∈ b.neighbours x ↔
      y ∈ a.neighbours x ∨ x ≠ y ∧ (x ∈ vs ∧ y ∈ ws ∨ y ∈ vs ∧ x ∈ ws) := by
  rw [connectAll_eq] at h
  rw [mem_neighbours_iff, mem_neighbours_iff]
  have hlisted : (∃ s, (x, y, s) ∈ crossing vs ws send receive) ↔
      x ≠ y ∧ (x ∈ vs ∧ y ∈ ws ∨ y ∈ vs ∧ x ∈ ws) := by
    simp only [mem_crossing]
    grind
  rw [← hlisted]
  obtain ⟨hL, hxy⟩ | ⟨s, hs, hxy⟩ := (connectEach_spec h).2.2 x y
  · rw [hxy, or_iff_left (not_exists.mpr hL)]
  · have hsome : (b.edge? x y).isSome := by simp [hxy]
    exact iff_of_true hsome (.inr ⟨s, hs⟩)

theorem connectAll_crossing (h : a.connectAll vs ws send receive = .ok b) (hd : vs.Disjoint ws)
    (hx : x ∈ vs) (hy : y ∈ ws) :
    b.edge? x y = some send ∧ b.edge? y x = some receive := by
  rw [connectAll_eq] at h
  have hne : x ≠ y := fun hxy => hd hx (hxy ▸ hy)
  constructor
  · obtain ⟨hL, -⟩ | ⟨s, hs, hxy⟩ := (connectEach_spec h).2.2 x y
    · exact absurd (mem_crossing.mpr ⟨hne, .inl ⟨hx, hy, rfl⟩⟩) (hL send)
    · obtain ⟨-, ⟨-, -, rfl⟩ | ⟨hyv, -⟩⟩ := mem_crossing.mp hs
      · exact hxy
      · exact absurd hy (hd hyv)
  · obtain ⟨hL, -⟩ | ⟨s, hs, hxy⟩ := (connectEach_spec h).2.2 y x
    · exact absurd (mem_crossing.mpr ⟨hne.symm, .inr ⟨hx, hy, rfl⟩⟩) (hL receive)
    · obtain ⟨-, ⟨hyv, -⟩ | ⟨-, -, rfl⟩⟩ := mem_crossing.mp hs
      · exact absurd hy (hd hyv)
      · exact hxy

theorem connectAll_edge? (h : a.connectAll vs ws send receive = .ok b)
    (hx : ¬ (x ∈ vs ∧ y ∈ ws)) (hy : ¬ (y ∈ vs ∧ x ∈ ws)) : b.edge? x y = a.edge? x y := by
  rw [connectAll_eq] at h
  obtain ⟨-, hxy⟩ | ⟨s, hs, -⟩ := (connectEach_spec h).2.2 x y
  · exact hxy
  · obtain ⟨-, ⟨hxv, hyw, -⟩ | ⟨hyv, hxw, -⟩⟩ := mem_crossing.mp hs
    · exact absurd ⟨hxv, hyw⟩ hx
    · exact absurd ⟨hyv, hxw⟩ hy

end Codegen.Arena
