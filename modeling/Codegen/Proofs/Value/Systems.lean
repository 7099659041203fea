import Codegen.Proofs.Value.Edges
import Mathlib.Logic.Relation

/-!
# Systems of values are cliques

Values that were joined, directly or through others, form a system. Whatever changes an arena goes
through, each member of a system has exactly one edge to each other member and to nothing else, so
one step along the edges reaches the whole system.

* `Arena.Change`, `Arena.after`: the changes of an arena, one after the other;
* `Arena.Joined`: **the systems that a history of changes makes**;
* `Arena.Systems`: **the edges connect exactly the members of the same system**;
* `Systems.system_eq`, `Systems.join`: a system is read off one cell; a join unites two systems;
* `Arena.systems_cliques`: **systems are cliques after every history**.
-/

namespace Codegen.Arena

/-! ## Histories -/

/-- A change of an arena. -/
inductive Change
  | create (handle : Handle) (format : Format)
  | join (child parent : ValueId) (mode : JoinMode)
  | setHandle (value : ValueId) (handle : Handle) (force : Bool)
  | setMetadata (value : ValueId) (metadata : Metadata) (force : Bool)
  | setFormat (value : ValueId) (format : Format)
  | setInstruction (value : ValueId) (index : Nat)
  | useAt (value : ValueId) (position : Nat)
  | restoreHandles (handles : Array Handle) (kept : List ValueId)

/-- The outcome of a change. -/
def perform (a : Arena) : Change → Except Fault Arena
  | .create h k => .ok (a.create h k).2
  | .join c p mode => a.join c p mode
  | .setHandle v h force => a.setHandle v h force
  | .setMetadata v m force => a.setMetadata v m force
  | .setFormat v k => a.setFormat v k
  | .setInstruction v i => a.setInstruction v i
  | .useAt v p => a.useAt v p
  | .restoreHandles hs kept => .ok (a.restoreHandles hs kept.contains)

/-- The outcome of changes, one after the other. -/
def after (a : Arena) (cs : List Change) : Except Fault Arena := cs.foldlM perform a

/-- **Two values were joined**, directly or through others. -/
def Joined (cs : List Change) : ValueId → ValueId → Prop :=
  Relation.EqvGen fun v w => ∃ mode, .join v w mode ∈ cs

/-- Two classes of values become one. -/
def Unite (R : ValueId → ValueId → Prop) (c p v w : ValueId) : Prop :=
  R v w ∨ R v c ∧ R p w ∨ R v p ∧ R c w

variable {a b : Arena} {c p v w : ValueId} {R : ValueId → ValueId → Prop} {f : Cell → Cell}
  {cs : List Change} {ch : Change} {mode : JoinMode} {vs : List ValueId} {force : Bool}

theorem ok_of_toOption {ε α : Type} {x : Except ε α} {y : α} (h : x.toOption = some y) :
    x = .ok y := by
  cases x with
  | ok z => exact congrArg _ (Option.some.inj h)
  | error => cases h

theorem after_append (a : Arena) (cs cs' : List Change) :
    a.after (cs ++ cs') = a.after cs >>= (·.after cs') := List.foldlM_append

theorem joined_equivalence (cs : List Change) : Equivalence (Joined cs) :=
  Relation.EqvGen.is_equivalence _

theorem Joined.mono {cs' : List Change} (h : Joined cs v w) (hs : cs ⊆ cs') : Joined cs' v w :=
  Relation.EqvGen.mono (fun _ _ ⟨mode, hm⟩ => ⟨mode, hs hm⟩) _ _ h

theorem unite_equivalence (h : Equivalence R) (c p : ValueId) : Equivalence (Unite R c p) where
  refl v := .inl (h.refl v)
  symm := by
    rintro v w (hvw | ⟨hv, hw⟩ | ⟨hv, hw⟩)
    · exact .inl (h.symm hvw)
    · exact .inr (.inr ⟨h.symm hw, h.symm hv⟩)
    · exact .inr (.inl ⟨h.symm hw, h.symm hv⟩)
  trans := by
    rintro u v w (huv | ⟨hu, hv⟩ | ⟨hu, hv⟩) (hvw | ⟨hv', hw⟩ | ⟨hv', hw⟩)
    · exact .inl (h.trans huv hvw)
    · exact .inr (.inl ⟨h.trans huv hv', hw⟩)
    · exact .inr (.inr ⟨h.trans huv hv', hw⟩)
    · exact .inr (.inl ⟨hu, h.trans hv hvw⟩)
    · exact .inr (.inl ⟨hu, hw⟩)
    · exact .inl (h.trans hu hw)
    · exact .inr (.inr ⟨hu, h.trans hv hvw⟩)
    · exact .inl (h.trans hu hw)
    · exact .inr (.inr ⟨hu, hw⟩)

theorem joined_concat_join :
    Joined (cs ++ [.join c p mode]) v w ↔ Unite (Joined cs) c p v w := by
  have hR := joined_equivalence cs
  constructor
  · intro h
    have hU := unite_equivalence hR c p
    induction h with
    | rel v w h =>
      obtain ⟨mode', hm⟩ := h
      rcases List.mem_append.mp hm with hm | hm
      · exact .inl (.rel v w ⟨mode', hm⟩)
      · cases List.mem_singleton.mp hm
        exact .inr (.inl ⟨hR.refl _, hR.refl _⟩)
    | refl v => exact hU.refl v
    | symm v w _ ih => exact hU.symm ih
    | trans u v w _ _ ih ih' => exact hU.trans ih ih'
  · have hsub : cs ⊆ cs ++ [.join c p mode] := List.subset_append_left _ _
    have hjoin : Joined (cs ++ [.join c p mode]) c p := .rel c p ⟨mode, by simp⟩
    rintro (hvw | ⟨hv, hw⟩ | ⟨hv, hw⟩)
    · exact hvw.mono hsub
    · exact (hv.mono hsub).trans _ _ _ (hjoin.trans _ _ _ (hw.mono hsub))
    · exact (hv.mono hsub).trans _ _ _ ((hjoin.symm _ _).trans _ _ _ (hw.mono hsub))

theorem joined_concat (h : ∀ c p mode, ch ≠ .join c p mode) : Joined (cs ++ [ch]) = Joined cs := by
  unfold Joined
  congr 1
  funext v w
  simp [(h _ _ _).symm]

/-! ## Cliques -/

/-- **The edges connect exactly the members of the same class.** -/
structure Systems (a : Arena) (R : ValueId → ValueId → Prop) : Prop where
  equivalence : Equivalence R
  oneEach : a.OneEach
  mem_neighbours : ∀ {v w}, w ∈ a.neighbours v ↔ v ≠ w ∧ R v w

theorem addMissing_of_subset {ms ns : List ValueId} (h : ns ⊆ ms) : addMissing ms ns = ms := by
  induction ns with
  | nil => rfl
  | cons n ns ih =>
    obtain ⟨hn, hns⟩ := List.cons_subset.mp h
    rw [addMissing, List.foldl_cons, if_pos hn]
    exact ih hns

theorem addMissing_of_nodup {ms ns : List ValueId} (h : (ms ++ ns).Nodup) :
    addMissing ms ns = ms ++ ns := by
  induction ns generalizing ms with
  | nil => simp [addMissing]
  | cons n ns ih =>
    have hn : n ∉ ms := fun hm => List.disjoint_of_nodup_append h hm List.mem_cons_self
    rw [List.append_cons] at h
    rw [addMissing, List.foldl_cons, if_neg hn, List.append_cons ms n ns]
    exact ih h

theorem reach_eq_self {ms : List ValueId} (h : ∀ v ∈ ms, a.neighbours v ⊆ ms) :
    ∀ fuel i, a.reach fuel i ms = ms
  | 0, _ => rfl
  | fuel + 1, i => by
    rw [reach]
    split
    next v hv =>
      rw [addMissing_of_subset (h v (List.mem_of_getElem? hv))]
      exact reach_eq_self h fuel (i + 1)
    next => rfl

namespace Systems

theorem empty : empty.Systems (Joined []) where
  equivalence := joined_equivalence []
  oneEach v := by simp [neighbours, cell?, Arena.empty]
  mem_neighbours {v w} := by
    have hnone : ¬ (v ≠ w ∧ Joined [] v w) := by
      rintro ⟨hne, h⟩
      induction h with
      | rel v w h => simp at h
      | refl v => exact hne rfl
      | symm v w _ ih => exact ih hne.symm
      | trans u v w _ _ ih ih' => grind
    simp [hnone, neighbours, cell?, Arena.empty]

theorem congr (h : a.Systems R) (hs : a.SameEdges b) : b.Systems R where
  equivalence := h.equivalence
  oneEach v := hs.neighbours v ▸ h.oneEach v
  mem_neighbours {v _} := hs.neighbours v ▸ h.mem_neighbours

theorem mem_cons_neighbours (h : a.Systems R) : w ∈ v :: a.neighbours v ↔ R v w := by
  rw [List.mem_cons, h.mem_neighbours]
  by_cases hw : w = v
  · subst hw
    simpa using h.equivalence.refl w
  · simp [hw, Ne.symm hw]

/-- **A system is a value and its neighbours**: one step along the edges reaches all of it. -/
theorem system_eq (h : a.Systems R) (v : ValueId) : a.system v = v :: a.neighbours v := by
  have hself : v ∉ a.neighbours v := fun hm => (h.mem_neighbours.mp hm).1 rfl
  have hnodup : ([v] ++ a.neighbours v).Nodup := List.nodup_cons.mpr ⟨hself, h.oneEach v⟩
  rw [system, reach]
  simp only [List.getElem?_cons_zero]
  rw [addMissing_of_nodup hnodup]
  refine reach_eq_self (fun u hu w hw => ?_) _ _
  exact h.mem_cons_neighbours.mpr
    (h.equivalence.trans (h.mem_cons_neighbours.mp hu) (h.mem_neighbours.mp hw).2)

theorem mem_system (h : a.Systems R) : w ∈ a.system v ↔ R v w := by
  rw [h.system_eq, h.mem_cons_neighbours]

theorem nodup_system (h : a.Systems R) (v : ValueId) : (a.system v).Nodup := by
  rw [h.system_eq]
  exact List.nodup_cons.mpr ⟨fun hm => (h.mem_neighbours.mp hm).1 rfl, h.oneEach v⟩

theorem lt_size (h : a.Systems R) (hv : v < a.size) (hw : R v w) : w < a.size := by
  by_cases hvw : w = v
  · exact hvw ▸ hv
  · exact lt_size_of_mem_neighbours (h.mem_neighbours.mpr ⟨hvw, h.equivalence.symm hw⟩)

theorem related (h : a.Systems R) (hw : w < a.size) :
    ∃ r, a.related v w = .ok r ∧ (r = true ↔ R v w) := by
  unfold Arena.related
  split
  next hvw =>
    subst hvw
    exact ⟨true, rfl, by simpa using h.equivalence.refl v⟩
  next hvw =>
    have hcell : a.cell? w = some a.cells[w] := Array.getElem?_eq_getElem hw
    refine ⟨_, by rw [cell_eq_ok.mpr hcell]; rfl, ?_⟩
    have hmem := h.mem_neighbours (v := w) (w := v)
    rw [neighbours, hcell] at hmem
    rw [List.any_eq_true]
    simp only [List.mem_map, beq_iff_eq] at hmem ⊢
    rw [hmem, and_iff_right (Ne.symm hvw)]
    exact ⟨h.equivalence.symm, h.equivalence.symm⟩

/-! ## Changes that reach a system -/

theorem nodup_audience (h : a.Systems R) (v : ValueId) (force : Bool) :
    (a.audience v force).Nodup := by
  unfold audience
  split
  · exact h.nodup_system v
  · refine List.nodup_cons.mpr ⟨fun hm => ?_, nodup_receivers h.oneEach v⟩
    exact (h.mem_neighbours.mp (receivers_subset a v hm)).1 rfl

theorem lt_size_of_mem_audience (h : a.Systems R) (hv : v < a.size)
    (hw : w ∈ a.audience v force) : w < a.size := by
  refine h.lt_size hv ?_
  unfold audience at hw
  split at hw
  · exact h.mem_system.mp hw
  · rcases List.mem_cons.mp hw with rfl | hw
    · exact h.equivalence.refl w
    · exact (h.mem_neighbours.mp (receivers_subset a v hw)).2

end Systems

theorem exists_updateAll (hn : vs.Nodup) (hv : ∀ v ∈ vs, v < a.size) :
    ∃ b, a.updateAll vs f = .ok b ∧
      ∀ w, b.cell? w = (a.cell? w).map fun c => if w ∈ vs then f c else c := by
  induction vs generalizing a with
  | nil => exact ⟨a, rfl, by simp⟩
  | cons v vs ih =>
    obtain ⟨hnv, hn⟩ := List.nodup_cons.mp hn
    have hu : a.update v f = .ok ⟨a.cells.modify v f⟩ := if_pos (hv v List.mem_cons_self)
    obtain ⟨b, hb, hcells⟩ := ih hn (a := ⟨a.cells.modify v f⟩) fun w hw =>
      (size_modify f).symm ▸ hv w (List.mem_cons_of_mem _ hw)
    refine ⟨b, ?_, fun w => ?_⟩
    · rw [updateAll, List.foldlM_cons, hu]
      exact hb
    · rw [hcells, cell?_modify, Option.map_map]
      refine congrArg (Option.map · (a.cell? w)) (funext fun c => ?_)
      by_cases hw : w = v
      · subst hw
        simp [hnv]
      · simp [hw]

theorem Systems.exists_updateAll (h : a.Systems R) (hv : v < a.size) (force : Bool)
    (f : Cell → Cell) :
    ∃ b, a.updateAll (a.audience v force) f = .ok b ∧
      ∀ w, b.cell? w = (a.cell? w).map fun c => if w ∈ a.audience v force then f c else c :=
  Arena.exists_updateAll (h.nodup_audience v force) fun _ => h.lt_size_of_mem_audience hv

/-! ## Joins -/

theorem join_edges (h : a.join c p mode = .ok b) : ∃ a₁,
    a.connectAll (a.system c) (a.system p) (mode != .noSend) (mode != .noReceive) = .ok a₁ ∧
      a₁.SameEdges b := by
  simp only [join, bind_eq_ok] at h
  obtain ⟨-, -, -, -, a₁, h₁, c₁, -, a₂, h₂, a₃, h₃, c₂, -, h₄⟩ := h
  exact ⟨a₁, h₁, (updateAll_sameEdges h₂ fun _ => rfl).trans
    ((updateAll_sameEdges h₃ fun _ => rfl).trans (updateAll_sameEdges h₄ fun _ => rfl))⟩

namespace Systems

theorem connectAll (h : a.Systems R) {send receive : Bool}
    (hb : a.connectAll (a.system c) (a.system p) send receive = .ok b) :
    b.Systems (Unite R c p) where
  equivalence := unite_equivalence h.equivalence c p
  oneEach := by
    rw [connectAll_eq] at hb
    exact (connectEach_spec hb).2.1 h.oneEach
  mem_neighbours {v w} := by
    rw [connectAll_neighbours hb, h.mem_neighbours, h.mem_system, h.mem_system, h.mem_system,
      h.mem_system, ← and_or_left, Unite]
    have hsymm {x y : ValueId} : R x y ↔ R y x := ⟨h.equivalence.symm, h.equivalence.symm⟩
    rw [hsymm (x := c) (y := v), hsymm (x := p) (y := v), and_comm (a := R c w)]

/-- **A join unites two systems.** -/
theorem join (h : a.Systems R) (hb : a.join c p mode = .ok b) : b.Systems (Unite R c p) := by
  obtain ⟨a₁, h₁, hs⟩ := join_edges hb
  exact (h.connectAll h₁).congr hs

theorem exists_join (h : a.Systems R) (hc : c < a.size) (hp : p < a.size) (mode : JoinMode) :
    ∃ b, a.join c p mode = .ok b := by
  have cell {a : Arena} {v : ValueId} (hv : v < a.size) : a.cell v = .ok a.cells[v] :=
    cell_eq_ok.mpr (Array.getElem?_eq_getElem hv)
  obtain ⟨a₁, h₁⟩ : ∃ b, a.connectAll (a.system c) (a.system p) (mode != .noSend)
      (mode != .noReceive) = .ok b :=
    exists_connectAll (fun v hv => h.lt_size hc (h.mem_system.mp hv))
      fun v hv => h.lt_size hp (h.mem_system.mp hv)
  have hs₁ := h.connectAll h₁
  have hp₁ : p < a₁.size := by
    rw [connectAll_eq] at h₁
    rwa [(connectEach_spec h₁).1]
  obtain ⟨a₂, h₂, -⟩ := hs₁.exists_updateAll hp₁ false fun m =>
    { m with handle := a₁.cells[p].handle }
  have e₂ := updateAll_sameEdges h₂ fun _ => rfl
  obtain ⟨a₃, h₃, -⟩ := (hs₁.congr e₂).exists_updateAll (Nat.lt_of_lt_of_le hp₁ e₂.size) false
    fun m => { m with metadata := a₁.cells[p].metadata }
  have e₃ := e₂.trans (updateAll_sameEdges h₃ fun _ => rfl)
  have hp₃ := Nat.lt_of_lt_of_le hp₁ e₃.size
  obtain ⟨b, hb, -⟩ := (hs₁.congr e₃).exists_updateAll hp₃ true fun m =>
    { m with
      lifetime := m.lifetime.union a₃.cells[p].lifetime
      instruction? := m.instruction?.orElse fun _ => a₃.cells[p].instruction? }
  refine ⟨b, ?_⟩
  simp only [Arena.join, bind_eq_ok]
  exact ⟨_, cell hc, _, cell hp, a₁, h₁, _, cell hp₁, a₂, h₂, a₃, h₃, _, cell hp₃, hb⟩

end Systems

/-! ## Every history -/

theorem perform_sameEdges (h : a.perform ch = .ok b) (hj : ∀ c p mode, ch ≠ .join c p mode) :
    a.SameEdges b := by
  cases ch with
  | create handle k =>
    cases h
    exact create_sameEdges a handle k
  | join c p mode => exact absurd rfl (hj c p mode)
  | setHandle | setMetadata => exact updateAll_sameEdges h fun _ => rfl
  | setFormat | setInstruction => exact update_sameEdges h fun _ => rfl
  | useAt => exact useAt_sameEdges h
  | restoreHandles hs kept =>
    cases h
    exact restoreHandles_sameEdges a hs _

theorem Systems.perform (h : a.Systems (Joined cs)) (hb : a.perform ch = .ok b) :
    b.Systems (Joined (cs ++ [ch])) := by
  by_cases hj : ∃ c p mode, ch = .join c p mode
  · obtain ⟨c, p, mode, rfl⟩ := hj
    have heq : Joined (cs ++ [.join c p mode]) = Unite (Joined cs) c p := by
      funext v w
      exact propext joined_concat_join
    rw [heq]
    exact h.join hb
  · simp only [not_exists] at hj
    rw [joined_concat hj]
    exact h.congr (perform_sameEdges hb hj)

theorem Systems.after (h : a.Systems (Joined cs)) {cs' : List Change}
    (hb : a.after cs' = .ok b) : b.Systems (Joined (cs ++ cs')) := by
  induction cs' generalizing a cs with
  | nil =>
    obtain rfl : a = b := pure_eq_ok.mp hb
    simpa using h
  | cons ch cs' ih =>
    rw [Arena.after, List.foldlM_cons, bind_eq_ok] at hb
    obtain ⟨a₁, h₁, hb⟩ := hb
    rw [List.append_cons]
    exact ih (h.perform h₁) hb

/-- **The edges of an arena make cliques** of the classes of an equivalence. -/
structure Cliques (a : Arena) (R : ValueId → ValueId → Prop) : Prop where
  equivalence : Equivalence R
  /-- No cell has an edge to itself. -/
  no_loop : ∀ v, v ∉ a.neighbours v
  /-- No cell has two edges to the same one. -/
  oneEach : ∀ v, (a.neighbours v).Nodup
  symm : ∀ v w, w ∈ a.neighbours v ↔ v ∈ a.neighbours w
  mem_neighbours : ∀ v w, w ∈ a.neighbours v ↔ v ≠ w ∧ R v w
  /-- A system begins with its value. -/
  head_system : ∀ v, (a.system v).head? = some v
  nodup_system : ∀ v, (a.system v).Nodup
  mem_system : ∀ v w, w ∈ a.system v ↔ R v w
  related : ∀ v w, w < a.size → ∃ r, a.related v w = .ok r ∧ (r = true ↔ R v w)
  /-- Two values can be joined, and that unites exactly their two systems. -/
  join : ∀ c p mode, c < a.size → p < a.size → ∃ b, a.join c p mode = .ok b ∧
    ∀ v w, w ∈ b.system v ↔ w ∈ a.system v ∨ c ∈ a.system v ∧ w ∈ a.system p ∨
      p ∈ a.system v ∧ w ∈ a.system c

/-- **Systems of values are cliques**, whatever changes an arena has gone through: those that were
joined, directly or through others, are connected each with each, and with nothing else. -/
theorem systems_cliques {cs : List Change} {a : Arena} (h : Arena.empty.after cs = .ok a) :
    a.Cliques (Joined cs) := by
  have hs : a.Systems (Joined cs) := Systems.empty.after h
  constructor
  · exact hs.equivalence
  · exact fun v hm => (hs.mem_neighbours.mp hm).1 rfl
  · exact hs.oneEach
  · intro v w
    rw [hs.mem_neighbours, hs.mem_neighbours]
    exact ⟨fun h => ⟨h.1.symm, hs.equivalence.symm h.2⟩,
      fun h => ⟨h.1.symm, hs.equivalence.symm h.2⟩⟩
  · exact fun v w => hs.mem_neighbours
  · intro v
    rw [hs.system_eq, List.head?_cons]
  · exact hs.nodup_system
  · exact fun v w => hs.mem_system
  · exact fun v w => hs.related
  · intro c p mode hc hp
    obtain ⟨b, hb⟩ := hs.exists_join hc hp mode
    refine ⟨b, hb, fun v w => ?_⟩
    rw [(hs.join hb).mem_system]
    simp only [hs.mem_system]
    rfl

/-- Four values, of which three are joined, the last two of them once more, and one with itself. -/
def rejoined : List Change :=
  [.create .none .i64, .create (.constant (.integer 4)) .i64, .create .none .i64,
    .create .none .decimal, .join 0 1 .full, .join 0 2 .noSend, .setHandle 2 .none true,
    .useAt 1 7, .join 1 2 .noReceive, .join 1 1 .full]

theorem cliques_rejoined : ∃ a, Arena.empty.after rejoined = .ok a ∧ a.Cliques (Joined rejoined) ∧
    a.system 2 = [2, 0, 1] ∧ a.system 3 = [3] := by
  have hdone : (Arena.empty.after rejoined).toOption.any fun a =>
      decide (a.system 2 = [2, 0, 1] ∧ a.system 3 = [3]) := by decide +kernel
  obtain ⟨a, ha, hsystem⟩ := (Option.any_eq_true _ _).mp hdone
  have hok := ok_of_toOption ha
  exact ⟨a, hok, systems_cliques hok, of_decide_eq_true hsystem⟩

end Codegen.Arena
