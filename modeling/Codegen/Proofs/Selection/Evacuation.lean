import Codegen.Proofs.Placement.Working
import Codegen.Selection.Call

/-!
# Values that outlive a call

Ahead of a call the values in volatile registers that are needed behind it are brought to safety.
The build goes through the owners that the registers had at first, while it frees registers and
gives others away. No step disturbs the values that are still to come or those that are safe: what
it writes was free, and what it frees belongs to the value that it moves.

* `Routine.Endangered`: **a value that the next call would destroy**;
* `Routine.IsRefuge`: homes that were free;
* `Rescued`: what bringing one value to safety does, by a move or by a store;
* `Evacuating`: the invariant of the loop, `Evacuating.rescued`: **one step of it**;
* `Generating.buildEvacuate_works`: **all values that outlive the call are safe**.
-/

namespace Codegen

open Machine Generating

/-! ## Dangers and refuges -/

/-- **A value that the next call would destroy**: it lives in a volatile register, and it is needed
behind the call. -/
structure Routine.Endangered (r : Routine) (q : Register) (v : ValueId) : Prop where
  inRange : r.registers.InRange q
  owner : r.registers.owner? q = some v
  handle : r.values.handleAt v = .register q
  volatile : r.registers.volatile.contains q = true
  outlives : r.values.Covers v (r.position + 2 : Nat)

/-- A home that was free: a register without an owner that calls preserve, or a slot that was made
between the two moments. -/
def Routine.IsRefuge (r r' : Routine) : Home → Prop
  | .register d => r.registers.InRange d ∧ r.registers.allocatable.contains d = true ∧
      r.registers.volatile.contains d = false ∧ r.registers.owner? d = none
  | .slot (.temporary k) => r.temporaries ≤ k ∧ k < r'.temporaries
  | .slot _ => False

/-- **A routine with values that can be brought to safety**: those that are in danger are needed
now, and none of them sends its changes to another one. -/
structure Routine.Evacuable (r : Routine) : Prop where
  ready : r.Ready
  needed : ∀ q v, r.Endangered q v → r.values.Covers v r.position
  apart : ∀ q v x w, r.Endangered q v → r.Endangered x w → w ∈ r.values.receivers v → w = v

variable {m : Machine} {r₀ r r' : Routine} {s₀ s s' : State}
variable {q d : Register} {v w : ValueId} {p : Home} {rest : List (Register × ValueId)}

theorem Routine.IsRefuge.mono (h : r₀.IsRefuge r p) (ht : r.temporaries ≤ r'.temporaries) :
    r₀.IsRefuge r' p := by
  cases p with
  | register d => exact h
  | slot k =>
    cases k with
    | temporary k => exact ⟨h.1, Nat.lt_of_lt_of_le h.2 ht⟩
    | _ => exact h

theorem Routine.IsRefuge.not_volatile (h : r₀.IsRefuge r (.register d))
    (hd : r₀.registers.volatile.contains d = true) : False :=
  Bool.noConfusion (hd.symm.trans h.2.2.1)

theorem Routine.IsRefuge.not_slot {k : SlotKey} (h : r₀.IsRefuge r (.slot k))
    (h' : r.IsRefuge r' (.slot k)) : False := by
  cases k with
  | temporary k => exact Nat.lt_irrefl _ (Nat.lt_of_lt_of_le h.2 h'.1)
  | _ => exact h

/-! ## One value -/

/-- **A value is brought to safety** from its register, which is free then. -/
structure Rescued (r : Routine) (s : State) (q : Register) (v : ValueId) (p : Home) (r' : Routine)
    (s' : State) : Prop where
  refuge : r.IsRefuge r' p
  home : (r'.values.handleAt v).home? = some p
  handles : ∀ w, r'.values.handleAt w =
    if w = v ∨ w ∈ r.values.receivers v then r'.values.handleAt v else r.values.handleAt w
  owner : ∀ x, r.registers.InRange x → r'.registers.owner? x =
    if p = .register x then some v else if x = q then none else r.registers.owner? x
  state : ∀ x, s'.valueAt x = if x = p then s.registers q else s.valueAt x

/-- **The loop, with these occupants still to come.** They own their registers yet, and they are
where they were if they are in danger. The others that were are safe. -/
structure Evacuating (m : Machine) (r₀ : Routine) (s₀ : State) (rest : List (Register × ValueId))
    (r : Routine) (s : State) : Prop where
  worked : Worked m r₀ s₀ r s
  distinct : (rest.map Prod.fst).Nodup
  occupied : ∀ x ∈ rest, r₀.registers.InRange x.1 ∧ r₀.registers.owner? x.1 = some x.2 ∧
    r.registers.owner? x.1 = some x.2
  waiting : ∀ x ∈ rest, r₀.Endangered x.1 x.2 → r.values.handleAt x.2 = .register x.1
  handles : ∀ w, r.values.handleAt w = r₀.values.handleAt w ∨
    ∃ p, (r.values.handleAt w).home? = some p ∧ r₀.IsRefuge r p
  owners : ∀ x w, r₀.registers.InRange x → r.registers.owner? x = some w →
    r₀.registers.owner? x = some w ∨ r₀.registers.volatile.contains x = false
  preserved : ∀ x, r₀.registers.InRange x → r₀.registers.volatile.contains x = false →
    r.registers.owner? x = none → r₀.registers.owner? x = none
  saved : ∀ q v, r₀.Endangered q v → (q, v) ∈ rest ∨
    ∃ p, r.Houses v p ∧ r₀.IsRefuge r p ∧ s.valueAt p = s₀.registers q
  kept : ∀ p, ¬ r₀.IsRefuge r p → s.valueAt p = s₀.valueAt p
  apart : ∀ q v x w k, r₀.Endangered q v → r₀.Endangered x w →
    (r.values.handleAt v).home? = some (.slot k) → (r.values.handleAt w).home? = some (.slot k) →
      v = w

namespace Evacuating

/-- A value that is in danger was so from the beginning. -/
theorem endangered (h : Evacuating m r₀ s₀ rest r s) (hq : r₀.registers.InRange q)
    (ho : r₀.registers.owner? q = some v) (hhandle : r.values.handleAt v = .register q)
    (hvolatile : r₀.registers.volatile.contains q = true)
    (houtlives : r₀.values.Covers v (r₀.position + 2 : Nat)) : r₀.Endangered q v := by
  refine ⟨hq, ho, ?_, hvolatile, houtlives⟩
  rcases h.handles v with hv | ⟨p, hp, hrefuge⟩
  · rw [← hv, hhandle]
  · rw [hhandle] at hp
    obtain rfl := Option.some.inj hp
    exact (hrefuge.not_volatile hvolatile).elim

theorem refuge_of_slot (h : Evacuating m r₀ s₀ rest r s) (hv : r₀.Endangered q v) {k : SlotKey}
    (hk : (r.values.handleAt v).home? = some (.slot k)) : r₀.IsRefuge r (.slot k) := by
  rcases h.saved q v hv with hmem | ⟨p, hhouse, hrefuge, -⟩
  · rw [h.waiting _ hmem hv] at hk
    cases hk
  · obtain rfl := Option.some.inj (hhouse.home.symm.trans hk)
    exact hrefuge

theorem skip (h : Evacuating m r₀ s₀ ((q, v) :: rest) r s) (hv : ¬ r₀.Endangered q v) :
    Evacuating m r₀ s₀ rest r s where
  worked := h.worked
  distinct := (List.nodup_cons.mp h.distinct).2
  occupied x hx := h.occupied x (List.mem_cons_of_mem _ hx)
  waiting x hx := h.waiting x (List.mem_cons_of_mem _ hx)
  handles := h.handles
  owners := h.owners
  preserved := h.preserved
  saved x w hw := by
    rcases h.saved x w hw with hmem | hsafe
    · rcases List.mem_cons.mp hmem with heq | hmem
      · cases heq
        exact absurd hw hv
      · exact .inl hmem
    · exact .inr hsafe
  kept := h.kept
  apart := h.apart

section Step

variable (h : Evacuating m r₀ s₀ ((q, v) :: rest) r s) (hr : r₀.Evacuable)
variable (hdanger : r₀.Endangered q v) (hv : Rescued r s q v p r' s')
include h hr hv

theorem refuge_step : r₀.IsRefuge r' p := by
  have hshape := h.worked.shape hr.ready
  have hp := hv.refuge
  cases p with
  | register d =>
    obtain ⟨hd, hallocatable, hvolatile, howner⟩ := hp
    have hd' := hshape.inRange.mp hd
    rw [hshape.allocatable] at hallocatable
    rw [hshape.volatile] at hvolatile
    exact ⟨hd', hallocatable, hvolatile, h.preserved d hd' hvolatile howner⟩
  | slot k =>
    cases k with
    | temporary k => exact ⟨Nat.le_trans h.worked.temporaries hp.1, hp.2⟩
    | _ => exact hp

omit h hr in
theorem ne_of_owner {x : Register} (hx : r.registers.owner? x = some w) : p ≠ .register x := by
  rintro rfl
  have := hv.refuge.2.2.2
  rw [hx] at this
  cases this

include hdanger

theorem handle_step {x : Register} (hw : r₀.Endangered x w) (hne : w ≠ v) :
    r'.values.handleAt w = r.values.handleAt w := by
  rw [hv.handles, if_neg]
  rintro (rfl | hreceived)
  · exact hne rfl
  · rw [h.worked.values.receivers] at hreceived
    exact hne (hr.apart q v x w hdanger hw hreceived)

theorem saved_step (hworked : Worked m r s r' s') (x : Register) (w : ValueId)
    (hw : r₀.Endangered x w) : (x, w) ∈ rest ∨
      ∃ p, r'.Houses w p ∧ r₀.IsRefuge r' p ∧ s'.valueAt p = s₀.registers x := by
  have hrefuge := refuge_step h hr hv
  have hshape : RegisterFile.SameShape r₀.registers r'.registers :=
    (h.worked.trans hworked).shape hr.ready
  by_cases hne : w = v
  · subst hne
    have hx : Handle.register x = .register q := by rw [← hw.handle, hdanger.handle]
    obtain rfl := Handle.register.inj hx
    refine .inr ⟨p, ⟨hv.home, ?_, ?_⟩, hrefuge, ?_⟩
    · rintro d rfl
      exact ⟨hshape.inRange.mpr hrefuge.1, by rw [hv.owner d hv.refuge.1, if_pos rfl]⟩
    · rintro k rfl
      exact hv.refuge.2
    · rw [hv.state, if_pos rfl]
      exact h.kept (.register x) fun hx => hx.not_volatile hw.volatile
  rcases h.saved x w hw with hmem | ⟨p', hhouse, hrefuge', hword⟩
  · rcases List.mem_cons.mp hmem with heq | hmem
    · exact absurd (congrArg Prod.snd heq) hne
    · exact .inl hmem
  -- a value that was safe keeps its home, which was not free any more
  have hp : p' ≠ p := by
    rintro rfl
    cases p' with
    | register d => exact ne_of_owner hv (hhouse.own d rfl).2 rfl
    | slot k => exact hrefuge'.not_slot hv.refuge
  have htemporaries := hworked.temporaries
  refine .inr ⟨p', ⟨?_, ?_, ?_⟩, hrefuge'.mono htemporaries, ?_⟩
  · rw [handle_step h hr hdanger hv hw hne, hhouse.home]
  · rintro d rfl
    have hdq : d ≠ q := by
      rintro rfl
      exact hrefuge'.not_volatile hdanger.volatile
    have hd := (h.worked.shape hr.ready).inRange.mpr hrefuge'.1
    refine ⟨hshape.inRange.mpr hrefuge'.1, ?_⟩
    rw [hv.owner d hd, if_neg (Ne.symm hp), if_neg hdq]
    exact (hhouse.own d rfl).2
  · rintro k rfl
    exact Nat.lt_of_lt_of_le (hhouse.made k rfl) htemporaries
  · rw [hv.state, if_neg hp, hword]

theorem apart_step (x : Register) (u : ValueId) (y : Register) (w : ValueId) (k : SlotKey)
    (hu : r₀.Endangered x u) (hw : r₀.Endangered y w)
    (hku : (r'.values.handleAt u).home? = some (.slot k))
    (hkw : (r'.values.handleAt w).home? = some (.slot k)) : u = w := by
  have fresh {x : Register} {w : ValueId} (hw : r₀.Endangered x w) (hne : w ≠ v)
      (hkw : (r'.values.handleAt w).home? = some (.slot k))
      (hkv : (r'.values.handleAt v).home? = some (.slot k)) : False := by
    obtain rfl := Option.some.inj (hv.home.symm.trans hkv)
    rw [handle_step h hr hdanger hv hw hne] at hkw
    exact (h.refuge_of_slot hw hkw).not_slot hv.refuge
  by_cases hne : u = v
  · subst hne
    by_contra hne'
    exact fresh hw (Ne.symm hne') hkw hku
  · by_cases hne' : w = v
    · subst hne'
      exact (fresh hu hne hku hkw).elim
    · rw [handle_step h hr hdanger hv hu hne] at hku
      rw [handle_step h hr hdanger hv hw hne'] at hkw
      exact h.apart x u y w k hu hw hku hkw

/-- **One step of the loop.** -/
theorem rescued (hworked : Worked m r s r' s') : Evacuating m r₀ s₀ rest r' s' := by
  have hshape := h.worked.shape hr.ready
  have hrefuge := refuge_step h hr hv
  obtain ⟨hfresh, hdistinct⟩ := List.nodup_cons.mp h.distinct
  have hne {x : Register × ValueId} (hx : x ∈ rest) : x.1 ≠ q := by
    intro he
    have hmem : x.1 ∈ rest.map Prod.fst := List.mem_map_of_mem hx
    exact hfresh (he ▸ hmem)
  refine ⟨h.worked.trans hworked, hdistinct, ?_, ?_, ?_, ?_, ?_,
    saved_step h hr hdanger hv hworked, ?_, apart_step h hr hdanger hv⟩
  · intro x hx
    obtain ⟨hin, hfirst, hnow⟩ := h.occupied x (List.mem_cons_of_mem _ hx)
    refine ⟨hin, hfirst, ?_⟩
    rw [hv.owner x.1 (hshape.inRange.mpr hin), if_neg (ne_of_owner hv hnow), if_neg (hne hx), hnow]
  · intro x hx hx'
    have hxv : x.2 ≠ v := by
      intro he
      have hq : Handle.register x.1 = .register q := by
        rw [← hx'.handle, he, hdanger.handle]
      exact hne hx (Handle.register.inj hq)
    rw [handle_step h hr hdanger hv hx' hxv]
    exact h.waiting x (List.mem_cons_of_mem _ hx) hx'
  · intro w
    rw [hv.handles]
    split
    · exact .inr ⟨p, hv.home, hrefuge⟩
    · rcases h.handles w with hw | ⟨p', hp', hrefuge'⟩
      · exact .inl hw
      · exact .inr ⟨p', hp', hrefuge'.mono hworked.temporaries⟩
  · intro x w hx hw
    rw [hv.owner x (hshape.inRange.mpr hx)] at hw
    split at hw
    next hp =>
      subst hp
      exact .inr hrefuge.2.2.1
    next =>
      split at hw
      · cases hw
      · exact h.owners x w hx hw
  · intro x hx hvolatile hnone
    rw [hv.owner x (hshape.inRange.mpr hx)] at hnone
    split at hnone
    · cases hnone
    · split at hnone
      next hxq =>
        subst hxq
        exact Bool.noConfusion (hdanger.volatile.symm.trans hvolatile)
      next => exact h.preserved x hx hvolatile hnone
  · intro x hx
    have hxp : x ≠ p := by
      rintro rfl
      exact hx hrefuge
    rw [hv.state, if_neg hxp]
    exact h.kept x fun hx' => hx (hx'.mono hworked.temporaries)

end Step

end Evacuating

namespace Generating

/-! ## Moves and stores -/

/-- **A value is moved** to a register that was free. -/
theorem works_relocate (hr : r.Ready) (hv : r.registers.owner? q = some v)
    (hq : r.registers.InRange q) (hd : r.IsRefuge r (.register d)) :
    Works m (relocate v q d) r s fun _ r' s' => Rescued r s q v (.register d) r' s' := by
  have hsize := hr.coherent.owned q v hq hv
  unfold relocate
  refine .bind (Q := fun _ r₁ s₁ => r₁.registers = r.registers ∧ r₁.values = r.values ∧
    r₁.temporaries = r.temporaries ∧ s₁ = s.set d (s.registers q))
    (.emit hr (perform_moveInto rfl) rfl ⟨rfl, rfl, rfl, rfl⟩) ?_
  rintro _ r₁ _ hw₁ ⟨hregisters, hvalues, htemporaries, rfl⟩
  refine .bind (Q := fun _ r₂ s₂ => Freed r₁ r₂ q ∧ r₂.values = r.values ∧
      r₂.temporaries = r.temporaries ∧ s₂ = s.set d (s.registers q))
    (works_release hw₁.ready (hregisters ▸ hq) (hregisters ▸ hv) fun g _ howner hlocks =>
      ⟨⟨howner, hlocks⟩, hvalues, htemporaries, rfl⟩) ?_
  rintro _ r₂ _ hw₂ ⟨hfreed, hvalues₂, htemporaries₂, rfl⟩
  have hshape := hw₂.shape hw₁.ready
  have hd₂ : r₂.registers.InRange d := hshape.inRange.mpr (hregisters ▸ hd.1)
  refine .mono (works_place hw₂.ready hd₂ (hvalues₂ ▸ hsize)) ?_
  rintro _ r₃ _ hw₃ ⟨hsettled, rfl⟩
  have hhandle : r₃.values.handleAt v = .register d := by simp [hsettled.handles]
  refine ⟨hd, by rw [hhandle]; rfl, fun w => ?_, fun x hx => ?_, fun x => ?_⟩
  · rw [hsettled.handles, hhandle, hvalues₂]
  · have hx₁ : r₁.registers.InRange x := hregisters ▸ hx
    rw [hsettled.owner x (hshape.inRange.mpr hx₁), hfreed.owner x hx₁, hregisters]
    simp only [Home.register.injEq, eq_comm]
  · rw [valueAt_set]

/-- **A value is stored** in a fresh slot. -/
theorem works_store (hr : r.Ready) (hv : r.registers.owner? q = some v)
    (hq : r.registers.InRange q) (hlives : r.Lives q v) :
    Works m (spill q) r s fun _ r' s' =>
      Rescued r s q v (.slot (.temporary r.temporaries)) r' s' := by
  refine .mono (works_spill hr hq hv) ?_
  rintro _ r' s' hw ⟨hfreed, ⟨-, hstored⟩ | ⟨hnot, -⟩⟩
  · have hhandle : r'.values.handleAt v = .temporarySlot r.temporaries .qword := by
      simp [hstored.handles]
    refine ⟨⟨Nat.le_refl _, ?_⟩, by rw [hhandle]; rfl, fun w => ?_,
      fun x hx => ?_, fun x => ?_⟩
    · rw [hstored.temporaries]
      exact Nat.lt_succ_self _
    · rw [hstored.handles, hhandle]
    · rw [hfreed.owner x hx, if_neg (fun h => Home.noConfusion h)]
    · rw [hstored.state, valueAt_store_slot]
  · exact absurd hlives hnot

theorem freePreserved?_spec (hr : r.Ready) (f : Format) :
    ∃ found, freePreserved? f.bank r = .ok found r ∧
      ∀ d, found = some d → r.IsRefuge r (.register d) := by
  obtain ⟨found, hfound, hfree, -⟩ := RegisterFile.freeOfClass?_spec
    hr.coherent.registers.width_le (Nat.lt_trans f.bank_lt (by decide)) false .empty
  refine ⟨found, ask_eq (by rw [hfound]; rfl), fun d hd => ?_⟩
  obtain ⟨hbank, hfree, -⟩ := hfree d hd
  have hin := hr.shape.inRange_of_isFree hbank hfree
  obtain ⟨-, hallocatable, hvolatile, hused, -⟩ := hfree
  exact ⟨hin, hallocatable, hvolatile, hr.coherent.registers.owner?_eq_none hin hused⟩

/-! ## The loop -/

theorem evacuateFrom_works (hr₀ : r₀.Evacuable) (h : Evacuating m r₀ s₀ ((q, v) :: rest) r s) :
    Works m (evacuateFrom q v) r s fun _ r' s' => Evacuating m r₀ s₀ rest r' s' := by
  have hr := h.worked.ready
  have hshape := h.worked.shape hr₀.ready
  obtain ⟨hq, ho, hnow⟩ := h.occupied (q, v) List.mem_cons_self
  have hq' := hshape.inRange.mpr hq
  obtain ⟨c, hc⟩ := Arena.exists_cell (hr.coherent.owned q v hq' hnow)
  have htest : (r.registers.volatile.contains q && c.handle.register? == some q &&
      c.lifetime.covers (r.position + 2 : Nat)) = true ↔ r₀.Endangered q v := by
    have hcovers : c.lifetime.covers (r.position + 2 : Nat) = true ↔
        r₀.values.Covers v (r₀.position + 2 : Nat) := by
      rw [← h.worked.values.covers, ← h.worked.position, Arena.covers_iff hc]
    have hregister : (c.handle.register? == some q) = true ↔ r.values.handleAt v = .register q := by
      rw [Arena.handleAt_eq hc, beq_iff_eq, Handle.register?_eq_some]
    rw [Bool.and_eq_true, Bool.and_eq_true, hcovers, hregister, hshape.volatile]
    constructor
    · rintro ⟨⟨hvolatile, hhandle⟩, houtlives⟩
      exact h.endangered hq ho hhandle hvolatile houtlives
    · intro hv
      exact ⟨⟨hv.volatile, h.waiting (q, v) List.mem_cons_self hv⟩, hv.outlives⟩
  unfold evacuateFrom
  refine .step (a := r) rfl (.step (isValid_eq hc _) (.step (a := r.registers.volatile.contains q)
    rfl (.step (handleOf_eq hc) ?_)))
  split
  next hdanger =>
    have hdanger := htest.mp hdanger
    obtain ⟨found, hfound, hrefuge⟩ := freePreserved?_spec hr c.format
    refine .step (formatOf_eq hc) (.step hfound ?_)
    cases found with
    | some d =>
      exact .mono (works_relocate hr hnow hq' (hrefuge d rfl)) fun _ r' s' hw hv =>
        h.rescued hr₀ hdanger hv hw
    | none =>
      have hlives : r.Lives q v := ⟨h.waiting (q, v) List.mem_cons_self hdanger,
        h.worked.values.covers.mpr (h.worked.position ▸ hr₀.needed q v hdanger)⟩
      exact .mono (works_store hr hnow hq' hlives) fun _ r' s' hw hv =>
        h.rescued hr₀ hdanger hv hw
  next hsafe => exact .pure hr (h.skip fun hv => hsafe (htest.mpr hv))

end Generating

/-- **All values that outlive a call are safe.** No volatile register holds one any more; those that
did are in homes of their own that were free, and nothing else is overwritten. -/
structure Evacuated (r r' : Routine) (s t : State) : Prop where
  cleared : ∀ q v, ¬ r'.Endangered q v
  saved : ∀ q v, r.Endangered q v →
    ∃ p, r'.Houses v p ∧ r.IsRefuge r' p ∧ t.valueAt p = s.registers q
  apart : ∀ q v x w p, r.Endangered q v → r.Endangered x w → v ≠ w →
    r'.Houses v p → ¬ r'.Houses w p
  kept : ∀ p, ¬ r.IsRefuge r' p → t.valueAt p = s.valueAt p
  memory : t.memory = s.memory

theorem Evacuating.evacuated (h : Evacuating m r₀ s₀ [] r s) (hr : r₀.Ready) :
    Evacuated r₀ r s₀ s where
  cleared q v hv := by
    have hshape := h.worked.shape hr
    have hq := hshape.inRange.mp hv.inRange
    have hvolatile : r₀.registers.volatile.contains q = true := hshape.volatile ▸ hv.volatile
    have ho : r₀.registers.owner? q = some v := by
      rcases h.owners q v hq hv.owner with ho | hpreserved
      · exact ho
      · exact Bool.noConfusion (hvolatile.symm.trans hpreserved)
    have hdanger : r₀.Endangered q v := h.endangered hq ho hv.handle hvolatile
      (h.worked.position ▸ h.worked.values.covers.mp hv.outlives)
    rcases h.saved q v hdanger with hmem | ⟨p, hhouse, hrefuge, -⟩
    · cases hmem
    · have hhome := hhouse.home
      rw [hv.handle] at hhome
      obtain rfl := Option.some.inj hhome
      exact hrefuge.not_volatile hvolatile
  saved q v hv := (h.saved q v hv).resolve_left List.not_mem_nil
  apart q v x w p hv hw hne hpv hpw := by
    cases p with
    | register d => exact hne (Option.some.inj ((hpv.own d rfl).2.symm.trans (hpw.own d rfl).2))
    | slot k => exact hne (h.apart q v x w k hv hw hpv.home hpw.home)
  kept := h.kept
  memory := h.worked.memory

namespace Generating

/-- **Ahead of a call all values that outlive it are brought to safety**, whatever machine runs the
operations. -/
theorem buildEvacuate_works (hr : r.Evacuable) :
    ∃ r' ops, buildEvacuate r = .ok () r' ∧ r'.operations = r.operations ++ ops ∧
      ∀ m s, ∃ t, m.execute ops s = some t ∧ Worked m r s r' t ∧ Evacuated r r' s t := by
  have hloop (m : Machine) (s : State) : Works m buildEvacuate r s fun _ r' s' =>
      Evacuated r r' s s' := by
    unfold buildEvacuate
    refine .step (a := r) rfl (.mono (.forM (Evacuating m r s) hr.ready ?_ ?_) fun _ r' s' _ h =>
      h.evacuated hr.ready)
    · have hoccupied (x : Register × ValueId) : x ∈ r.registers.occupants ↔
          r.registers.InRange x.1 ∧ r.registers.owner? x.1 = some x.2 :=
        RegisterFile.mem_occupants hr.ready.coherent.registers
      refine ⟨.refl hr.ready, RegisterFile.nodup_occupants, fun x hx => ?_, fun x _ hx => hx.handle,
        fun w => .inl rfl, fun x w _ hw => .inl hw, fun x _ _ hx => hx, fun x w hw => .inl ?_,
        fun _ _ => rfl, fun x u y w k hu _ hk _ => ?_⟩
      · have := (hoccupied x).mp hx
        exact ⟨this.1, this.2, this.2⟩
      · exact (hoccupied (x, w)).mpr ⟨hw.inRange, hw.owner⟩
      · rw [hu.handle] at hk
        cases hk
    · rintro ⟨q, v⟩ rest r' s' _ h
      exact evacuateFrom_works hr h
  have hmachine : ∃ (_ : Machine) (_ : State), True :=
    ⟨⟨.x64, fun _ => 0, fun _ => 0⟩, ⟨fun _ => 0, fun _ => 0, fun _ => 0, none⟩, trivial⟩
  obtain ⟨_, r', ops, h, hops, hrun⟩ := Works.uniform hmachine fun m s _ => hloop m s
  exact ⟨r', ops, h, hops, fun m s => hrun m s trivial⟩

end Generating

end Codegen
