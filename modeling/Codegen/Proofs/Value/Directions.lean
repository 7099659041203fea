import Codegen.Proofs.Value.Systems

/-!
# Directions between joined values

The join that brings two values into one system fixes in which directions plain changes travel
between them. Later joins connect the members of two other systems, each with each, but touch no
edge within a system: while every join unites two different systems, the directions stay.

* `Arena.Separate`: every join of a history unites two different systems;
* `Systems.perform_edge?`, `Systems.after_edge?`: **an edge within a system is never changed**;
* `Arena.Copies`, `Arena.Spares`, `Arena.Forces`: how far plain and forced changes of a value reach;
* `Arena.directions_kept`: **the directions are those of the join**, behind every further history.
-/

namespace Codegen.Arena

variable {a b : Arena} {c p v w child parent : ValueId} {R : ValueId → ValueId → Prop}
  {cs cs' before rest : List Change} {ch : Change} {mode : JoinMode}

/-! ## Edges within a system -/

/-- **Every join of the history unites two different systems.** -/
def Separate (cs : List Change) : Prop :=
  ∀ before c p mode rest, cs = before ++ .join c p mode :: rest → ¬ Joined before c p

theorem Systems.perform_edge? (h : a.Systems R) (hb : a.perform ch = .ok b)
    (hsep : ∀ c p mode, ch = .join c p mode → ¬ R c p) (hvw : R v w) :
    b.edge? v w = a.edge? v w := by
  by_cases hj : ∃ c p mode, ch = .join c p mode
  · obtain ⟨c, p, mode, rfl⟩ := hj
    obtain ⟨a₁, h₁, hs⟩ := join_edges hb
    have hcp := hsep c p mode rfl
    rw [hs.edge?]
    -- a pair in two different systems is not in one
    refine connectAll_edge? h₁ ?_ ?_
    · rintro ⟨hv, hw⟩
      have hcv := h.mem_system.mp hv
      have hpw := h.mem_system.mp hw
      exact hcp (h.equivalence.trans hcv (h.equivalence.trans hvw (h.equivalence.symm hpw)))
    · rintro ⟨hw, hv⟩
      have hcw := h.mem_system.mp hw
      have hpv := h.mem_system.mp hv
      exact hcp (h.equivalence.trans hcw
        (h.equivalence.trans (h.equivalence.symm hvw) (h.equivalence.symm hpv)))
  · simp only [not_exists] at hj
    exact (perform_sameEdges hb hj).edge? v w

/-- **Edges within a system stay as they are**, behind every further history. -/
theorem Systems.after_edge? (h : a.Systems (Joined cs)) (hb : a.after cs' = .ok b)
    (hsep : Separate (cs ++ cs')) (hvw : Joined cs v w) : b.edge? v w = a.edge? v w := by
  induction cs' generalizing a cs with
  | nil =>
    obtain rfl : a = b := pure_eq_ok.mp hb
    rfl
  | cons ch cs' ih =>
    rw [Arena.after, List.foldlM_cons, bind_eq_ok] at hb
    obtain ⟨a₁, h₁, hb⟩ := hb
    have hjoin : ∀ c p mode, ch = .join c p mode → ¬ Joined cs c p := by
      rintro c p mode rfl
      exact hsep cs c p mode cs' rfl
    rw [List.append_cons] at hsep
    rw [ih (h.perform h₁) hb hsep (hvw.mono (List.subset_append_left _ _))]
    exact h.perform_edge? h₁ hjoin hvw

theorem Systems.join_edge? (h : a.Systems R) (hb : a.join child parent mode = .ok b)
    (hne : ¬ R child parent) (hc : R child c) (hp : R parent p) :
    b.edge? c p = some (mode != .noSend) ∧ b.edge? p c = some (mode != .noReceive) := by
  obtain ⟨a₁, h₁, hs⟩ := join_edges hb
  rw [hs.edge?, hs.edge?]
  refine connectAll_crossing h₁ (fun v hv hv' => hne ?_) (h.mem_system.mpr hc)
    (h.mem_system.mpr hp)
  exact h.equivalence.trans (h.mem_system.mp hv) (h.equivalence.symm (h.mem_system.mp hv'))

/-- Does the change leave each system as it is, or unite two different ones? -/
def isApart (a : Arena) : Change → Bool
  | .join c p _ => !(a.system c).contains p
  | _ => true

/-- Does every join unite two different systems? -/
def isSeparate (a : Arena) : List Change → Bool
  | [] => true
  | ch :: cs =>
    a.isApart ch &&
      match a.perform ch with
      | .ok b => b.isSeparate cs
      | .error _ => false

theorem Systems.separate_of_isSeparate (h : a.Systems (Joined cs)) (hcs : a.isSeparate cs' = true) :
    ∀ before c p mode rest, cs' = before ++ .join c p mode :: rest →
      ¬ Joined (cs ++ before) c p := by
  induction cs' generalizing a cs with
  | nil => simp
  | cons ch cs' ih =>
    rw [isSeparate, Bool.and_eq_true] at hcs
    obtain ⟨hch, hcs⟩ := hcs
    intro before c p mode rest he
    cases before with
    | nil =>
      obtain ⟨rfl, rfl⟩ := List.cons.inj he
      rw [List.append_nil, ← h.mem_system]
      simpa [isApart] using hch
    | cons d before =>
      obtain ⟨rfl, rfl⟩ := List.cons.inj he
      rw [List.append_cons]
      split at hcs
      next b hb => exact ih (h.perform hb) hcs before c p mode rest rfl
      next => cases hcs

/-! ## How far a change reaches -/

/-- A plain change of the first value is copied to the second one. -/
structure Copies (a : Arena) (v w : ValueId) : Prop where
  handle : ∀ h, ∃ b, a.setHandle v h false = .ok b ∧ (b.cell? w).map (·.handle) = some h
  metadata : ∀ m, ∃ b, a.setMetadata v m false = .ok b ∧ (b.cell? w).map (·.metadata) = some m

/-- A plain change of the first value leaves the second one as it is. -/
structure Spares (a : Arena) (v w : ValueId) : Prop where
  handle : ∀ h, ∃ b, a.setHandle v h false = .ok b ∧ b.cell? w = a.cell? w
  metadata : ∀ m, ∃ b, a.setMetadata v m false = .ok b ∧ b.cell? w = a.cell? w

/-- A forced change of the value reaches exactly the listed ones. -/
structure Forces (a : Arena) (v : ValueId) (reached : List ValueId) : Prop where
  handle : ∀ h, ∃ b, a.setHandle v h true = .ok b ∧
    ∀ w, b.cell? w = (a.cell? w).map fun c => if w ∈ reached then { c with handle := h } else c
  metadata : ∀ m, ∃ b, a.setMetadata v m true = .ok b ∧
    ∀ w, b.cell? w = (a.cell? w).map fun c => if w ∈ reached then { c with metadata := m } else c

namespace Systems

theorem mem_audience (h : a.Systems R) (hne : w ≠ v) :
    w ∈ a.audience v false ↔ a.edge? v w = some true := by
  rw [audience, if_neg Bool.false_ne_true, List.mem_cons, or_iff_right hne,
    mem_receivers_iff h.oneEach]

theorem copies (h : a.Systems R) (hv : v < a.size) (hne : w ≠ v) (he : a.edge? v w = some true) :
    a.Copies v w := by
  have hmem := (h.mem_audience hne).mpr he
  have hw : w < a.cells.size := h.lt_size_of_mem_audience hv hmem
  have hcell : a.cell? w = some a.cells[w] := Array.getElem?_eq_getElem hw
  constructor
  · intro g
    obtain ⟨b, hb, hcells⟩ := h.exists_updateAll hv false fun c => { c with handle := g }
    exact ⟨b, hb, by simp [hcells, hcell, hmem]⟩
  · intro m
    obtain ⟨b, hb, hcells⟩ := h.exists_updateAll hv false fun c => { c with metadata := m }
    exact ⟨b, hb, by simp [hcells, hcell, hmem]⟩

theorem spares (h : a.Systems R) (hv : v < a.size) (hne : w ≠ v) (he : a.edge? v w = some false) :
    a.Spares v w := by
  have hmem : w ∉ a.audience v false := fun hw => by
    rw [h.mem_audience hne, he] at hw
    cases hw
  constructor
  · intro g
    obtain ⟨b, hb, hcells⟩ := h.exists_updateAll hv false fun c => { c with handle := g }
    exact ⟨b, hb, by simp [hcells, hmem]⟩
  · intro m
    obtain ⟨b, hb, hcells⟩ := h.exists_updateAll hv false fun c => { c with metadata := m }
    exact ⟨b, hb, by simp [hcells, hmem]⟩

theorem forces (h : a.Systems R) (hv : v < a.size) : a.Forces v (a.system v) where
  handle g := h.exists_updateAll hv true fun c => { c with handle := g }
  metadata m := h.exists_updateAll hv true fun c => { c with metadata := m }

theorem directed (h : a.Systems R) (hv : v < a.size) (hne : w ≠ v) {s : Bool}
    (he : a.edge? v w = some s) : if s then a.Copies v w else a.Spares v w := by
  cases s with
  | true => exact h.copies hv hne he
  | false => exact h.spares hv hne he

end Systems

/-! ## Every history -/

/-- **The directions between two values are those of the join that united their systems**, behind
every further history, while each join unites two different systems. A plain change of a member of
the child's system is copied to those of the parent's system unless sending was disabled, the other
way round unless receiving was disabled, and a forced change reaches exactly the system. -/
theorem directions_kept {before rest : List Change} {child parent c p : ValueId}
    {mode : JoinMode} {a : Arena}
    (h : Arena.empty.after (before ++ .join child parent mode :: rest) = .ok a)
    (hsep : Separate (before ++ .join child parent mode :: rest))
    (hc : Joined before child c) (hp : Joined before parent p) :
    (if mode = .noSend then a.Spares c p else a.Copies c p) ∧
      (if mode = .noReceive then a.Spares p c else a.Copies p c) ∧
      ∀ v < a.size, a.Forces v (a.system v) ∧
        ∀ w, w ∈ a.system v ↔ Joined (before ++ .join child parent mode :: rest) v w := by
  have hs : a.Systems (Joined _) := Systems.empty.after h
  simp only [List.nil_append] at hs
  rw [after_append, bind_eq_ok] at h
  obtain ⟨a₀, h₀, h⟩ := h
  rw [after, List.foldlM_cons, bind_eq_ok] at h
  obtain ⟨a₁, h₁, h⟩ := h
  have hs₀ : a₀.Systems (Joined before) := Systems.empty.after h₀
  have hne : ¬ Joined before child parent := hsep before child parent mode rest rfl
  -- the edges that the join makes
  obtain ⟨hcp₁, hpc₁⟩ := hs₀.join_edge? h₁ hne hc hp
  have hs₁ := hs₀.perform h₁
  have hsub : before ⊆ before ++ [.join child parent mode] := List.subset_append_left _ _
  have hjoin : Joined (before ++ [.join child parent mode]) child parent :=
    .rel _ _ ⟨mode, by simp⟩
  have hR := joined_equivalence (before ++ [.join child parent mode])
  have hjcp : Joined (before ++ [.join child parent mode]) c p :=
    hR.trans (hR.symm (hc.mono hsub)) (hR.trans hjoin (hp.mono hsub))
  -- they stay
  rw [List.append_cons] at hsep
  have hcp := (hs₁.after_edge? h hsep hjcp).trans hcp₁
  have hpc := (hs₁.after_edge? h hsep (hR.symm hjcp)).trans hpc₁
  have hcne : p ≠ c := by
    rintro rfl
    exact hne (hs₀.equivalence.trans hc (hs₀.equivalence.symm hp))
  have hclt : c < a.size := lt_size_of_mem_neighbours (mem_neighbours_iff.mpr (by rw [hcp]; rfl))
  have hplt : p < a.size := lt_size_of_mem_neighbours (mem_neighbours_iff.mpr (by rw [hpc]; rfl))
  refine ⟨?_, ?_, fun v hv => ⟨hs.forces hv, fun w => hs.mem_system⟩⟩
  · have hdir := hs.directed hclt hcne hcp
    cases mode <;> exact hdir
  · have hdir := hs.directed hplt hcne.symm hpc
    cases mode <;> exact hdir

/-- Two pairs of joined values, whose systems are then joined without sending; behind that a fifth
value joins them, which sends and receives. -/
def pairs : List Change × List Change :=
  ([.create .none .i64, .create .none .i64, .create .none .i64, .create .none .i64,
      .create .none .i64, .join 0 1 .full, .join 2 3 .noReceive],
    [.setHandle 1 (.constant (.integer 8)) false, .join 4 0 .full, .useAt 3 9])

theorem directions_pairs : ∃ a,
    Arena.empty.after (pairs.1 ++ .join 1 2 .noSend :: pairs.2) = .ok a ∧
      Separate (pairs.1 ++ .join 1 2 .noSend :: pairs.2) ∧ a.Spares 0 3 ∧ a.Copies 3 0 ∧
      a.Forces 4 (a.system 4) := by
  have hdone : (Arena.empty.after (pairs.1 ++ .join 1 2 .noSend :: pairs.2)).toOption.any fun a =>
      decide (4 < a.size) := by decide +kernel
  obtain ⟨a, ha, hlt⟩ := (Option.any_eq_true _ _).mp hdone
  have hok := ok_of_toOption ha
  have hsep : Separate (pairs.1 ++ .join 1 2 .noSend :: pairs.2) :=
    Systems.empty.separate_of_isSeparate (by decide +kernel)
  have hc : Joined pairs.1 1 0 := .symm _ _ (.rel _ _ ⟨.full, by simp [pairs]⟩)
  have hp : Joined pairs.1 2 3 := .rel _ _ ⟨.noReceive, by simp [pairs]⟩
  obtain ⟨hcp, hpc, hforce⟩ := directions_kept hok hsep hc hp
  exact ⟨a, hok, hsep, hcp, hpc, (hforce 4 (of_decide_eq_true hlt)).1⟩

end Codegen.Arena
