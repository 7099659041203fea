import Mathlib
import Codegen.Proofs.Placement.Parallel
import Codegen.Proofs.Register.File
import Codegen.Proofs.Value.Edges

/-!
# Simultaneous assignment

A parallel move gives each destination the value that its source had before, although destinations
may be sources of other moves. Values in its destinations that are needed later and that nothing
else reads go to fresh slots first.

* `Routine.Coherent`: the values of a routine own its registers and share their changes;
* `Routine.Offers`, `Routine.CanMove`: homes that exist, and **moves that can be made at once**;
* `Generating.lockSources_spec`, `saveDestinations_spec`: what comes before the assignments;
* `Generating.parallelMove_simultaneous`: **a parallel move is a simultaneous assignment**.
-/

namespace Codegen

/-! ## Routines and moves -/

/-- **The tables of a routine fit together**: registers are owned by values that exist, and values
send changes of their homes to values that exist. -/
structure Routine.Coherent (r : Routine) : Prop where
  registers : r.registers.WellFormed
  owned : ∀ q v, r.registers.InRange q → r.registers.owner? q = some v → v < r.values.size
  received : ∀ v, ∀ w ∈ r.values.receivers v, w < r.values.size

/-- A home that values of a format can have: a slot that exists, or a register of their class. -/
structure Routine.Offers (r : Routine) (f : Format) (p : Home) : Prop where
  home : r.target.IsHome f p
  register : ∀ d, p = .register d → r.registers.InRange d
  temporary : ∀ k, p = .slot (.temporary k) → k < r.temporaries

/-- **Moves that can be made at once.** Each takes a value from a home or a constant to a home of
its class. The destinations differ, and none of them is a slot that another move reads. -/
structure Routine.CanMove (r : Routine) (moves : List (Handle × ValueId)) : Prop where
  movable : ∀ a ∈ moves, ∃ c, r.values.cell? a.2 = some c ∧ c.handle.IsSource c.format ∧
    (∀ p, c.handle.home? = some p → r.Offers c.format p) ∧
    ∃ p, a.1.home? = some p ∧ r.Offers c.format p
  distinct : (moves.map fun a => a.1.home?).Nodup
  apart : ∀ a ∈ moves, ∀ b ∈ moves, a ≠ b → ∀ k, a.1.home? = some (.slot k) →
    (r.values.handleAt b.2).home? ≠ some (.slot k)

/-- The lock counts of the registers have room for one lock for each move that reads them. -/
def Routine.HasLocks (r : Routine) (moves : List (Handle × ValueId)) : Prop :=
  ∀ q, r.registers.used.contains q = true →
    r.registers.lockCount q + moves.countP (fun a => r.values.handleAt a.2 = .register q) ≤ 255

/-- What a move with a value takes. -/
theorem Routine.CanMove.of_cell {r : Routine} {moves : List (Handle × ValueId)}
    (hm : r.CanMove moves) {move : Handle × ValueId} (hmove : move ∈ moves) {c : Cell}
    (hc : r.values.cell? move.2 = some c) :
    c.handle.IsSource c.format ∧ (∀ p, c.handle.home? = some p → r.Offers c.format p) ∧
      ∃ p, move.1.home? = some p ∧ r.Offers c.format p := by
  obtain ⟨c', hc', h⟩ := hm.movable move hmove
  obtain rfl := Option.some.inj (hc.symm.trans hc')
  exact h

/-- The assignment that a move takes, if its value is not there yet. -/
def Routine.assignmentOf (r : Routine) (move : Handle × ValueId) : Option Assignment :=
  (r.values.cell? move.2).bind fun c =>
    if c.handle = move.1 then none else some ⟨move.1, c.handle, c.format⟩

namespace Arena

variable {a : Arena} {v : ValueId}

theorem exists_updateAll_of_lt {vs : List ValueId} (hv : ∀ v ∈ vs, v < a.size) (f : Cell → Cell) :
    ∃ b, a.updateAll vs f = .ok b ∧ b.size = a.size := by
  induction vs generalizing a with
  | nil => exact ⟨a, rfl, rfl⟩
  | cons v vs ih =>
    rw [List.forall_mem_cons] at hv
    have hsize := size_modify (a := a) (v := v) f
    obtain ⟨b, hb, hbsize⟩ := ih (a := ⟨a.cells.modify v f⟩) (by simpa only [hsize] using hv.2)
    refine ⟨b, ?_, hbsize.trans hsize⟩
    rw [updateAll, List.foldlM_cons, update, if_pos hv.1]
    exact hb

theorem exists_setHandle (hv : v < a.size) (hr : ∀ w ∈ a.receivers v, w < a.size) (h : Handle) :
    ∃ b, a.setHandle v h false = .ok b ∧ b.size = a.size ∧ ∀ w, b.receivers w = a.receivers w := by
  have haudience : ∀ w ∈ a.audience v false, w < a.size := by
    simpa [audience] using ⟨hv, hr⟩
  obtain ⟨b, hb, hsize⟩ := exists_updateAll_of_lt haudience fun c => { c with handle := h }
  refine ⟨b, hb, hsize, fun w => ?_⟩
  rw [receivers_eq, receivers_eq, (updateAll_sameEdges hb fun _ => rfl).edges]

end Arena

namespace Generating

open Machine Assignment

variable {r r' r'' : Routine} {q : Register} {pending : List Assignment} {a : Assignment}
variable {moves : List (Handle × ValueId)}

/-! ## What moves take -/

theorem filterMapM_eq {α β : Type} {xs : List α} {k : α → Generating (Option β)} {b : α → Option β}
    (h : ∀ x ∈ xs, k x r = .ok (b x) r) : xs.filterMapM k r = .ok (xs.filterMap b) r := by
  induction xs with
  | nil => rfl
  | cons x xs ih =>
    rw [List.forall_mem_cons] at h
    rw [List.filterMapM_cons, bind_of_ok h.1, List.filterMap_cons]
    cases b x with
    | none => exact ih h.2
    | some y =>
      have hrest : (xs.filterMapM k >>= fun ys => pure (y :: ys)) r =
          .ok (y :: xs.filterMap b) r := by
        rw [bind_of_ok (ih h.2)]
        rfl
      exact hrest

theorem assignment?_eq (hm : r.CanMove moves) {move : Handle × ValueId} (hmem : move ∈ moves) :
    assignment? move r = .ok (r.assignmentOf move) r := by
  obtain ⟨c, hc, hsource, -⟩ := hm.movable move hmem
  have hplain : plainSource move.2 r = .ok c.handle r := by
    unfold plainSource
    rw [bind_of_ok (handleOf_eq hc)]
    cases h : c.handle <;> rw [h] at hsource <;> first | rfl | cases hsource
  unfold assignment?
  rw [bind_of_ok (formatOf_eq hc), bind_of_ok hplain, Routine.assignmentOf, hc]
  rfl

theorem mem_pending (ha : a ∈ moves.filterMap r.assignmentOf) : ∃ move ∈ moves, ∃ c,
    r.values.cell? move.2 = some c ∧ c.handle ≠ move.1 ∧ a = ⟨move.1, c.handle, c.format⟩ := by
  obtain ⟨move, hmove, hsome⟩ := List.mem_filterMap.mp ha
  obtain ⟨c, hc, hsome⟩ := Option.bind_eq_some_iff.mp hsome
  split at hsome
  next => cases hsome
  next hne => exact ⟨move, hmove, c, hc, hne, (Option.some.inj hsome).symm⟩

theorem planned_of_canMove (hm : r.CanMove moves) :
    Planned r.target (moves.filterMap r.assignmentOf) where
  home a ha := by
    obtain ⟨move, hmove, c, hc, -, rfl⟩ := mem_pending ha
    obtain ⟨-, -, p, hp, hoffers⟩ := hm.of_cell hmove hc
    exact ⟨p, hp, hoffers.home⟩
  source a ha := by
    obtain ⟨move, hmove, c, hc, -, rfl⟩ := mem_pending ha
    exact (hm.of_cell hmove hc).1
  class_eq a ha d hd := by
    obtain ⟨move, hmove, c, hc, -, rfl⟩ := mem_pending ha
    obtain ⟨-, hoffers, -⟩ := hm.of_cell hmove hc
    exact (hoffers _ (Handle.home?_eq_register.mpr hd)).home.1
  distinct := by
    have hdistinct := hm.distinct
    rw [List.Nodup, List.pairwise_map] at hdistinct ⊢
    refine hdistinct.filterMap _ fun move other hne a ha b hb => ?_
    have hdestination {move : Handle × ValueId} {a : Assignment}
        (h : r.assignmentOf move = some a) : a.destination = move.1 := by
      obtain ⟨c, -, h⟩ := Option.bind_eq_some_iff.mp h
      split at h
      next => cases h
      next => exact Option.some.inj h ▸ rfl
    rw [hdestination ha, hdestination hb]
    exact hne
  apart a ha b hb hne k hk := by
    obtain ⟨move, hmove, c, hc, -, rfl⟩ := mem_pending ha
    obtain ⟨other, hother, c', hc', -, rfl⟩ := mem_pending hb
    have happart := hm.apart move hmove other hother (fun he => hne ?_) k hk
    · rwa [Arena.handleAt_eq hc'] at happart
    · subst he
      obtain rfl := Option.some.inj (hc.symm.trans hc')
      rfl
  scratch a ha d hd hr := by
    obtain ⟨move, hmove, c, hc, -, rfl⟩ := mem_pending ha
    obtain ⟨-, hoffers, -⟩ := hm.of_cell hmove hc
    exact absurd hr (hoffers _ (Handle.home?_eq_register.mpr hd)).home.2.2

/-! ## Locks -/

/-- The registers of the routine may be others. -/
def Reregistered (r r' : Routine) : Prop :=
  ∃ registers, r' = { r with registers } ∧ registers.WellFormed ∧
    RegisterFile.SameShape r.registers registers ∧ registers.owner? = r.registers.owner?

theorem lockUsed_eq : lockUsed q r =
    if r.registers.used.contains q then changeRegisters (·.lock q) r else .ok () r := by
  change (if r.registers.used.contains q then lock q else pure ()) r = _
  split <;> rfl

theorem lockSource_spec (hr : r.registers.WellFormed)
    (hc : ∀ q, a.source = .register q → r.registers.used.contains q = true →
      r.registers.lockCount q < 255) :
    ∃ g, a.source.register?.forM lockUsed r = .ok () { r with registers := g } ∧ g.WellFormed ∧
      RegisterFile.SameShape r.registers g ∧ g.owner? = r.registers.owner? ∧
      g.used = r.registers.used ∧ ∀ x, r.registers.used.contains x = true →
        g.lockCount x = r.registers.lockCount x + if a.source = .register x then 1 else 0 := by
  cases hsource : a.source with
  | register q =>
    change ∃ g, lockUsed q r = _ ∧ _
    rw [lockUsed_eq]
    split
    next hq =>
      obtain ⟨g, hg, hwell, hshape, howner, hused, hcount⟩ :=
        RegisterFile.lock_spec hr hq (hc q hsource hq)
      refine ⟨g, changeRegisters_eq g hg, hwell, hshape, howner, hused, fun x hx => ?_⟩
      rw [hcount x (hr.inRange_of_used hx)]
      simp only [Handle.register.injEq, eq_comm]
    next hq =>
      refine ⟨r.registers, rfl, hr, .refl _, rfl, rfl, fun x hx => ?_⟩
      rw [if_neg (by rintro ⟨⟩; exact hq hx), Nat.add_zero]
  | _ => exact ⟨r.registers, rfl, hr, .refl _, rfl, rfl, fun _ _ => by simp only [reduceCtorEq, if_false,
      Nat.add_zero]⟩

theorem lockSource_overflows (hr : r.registers.WellFormed) (hs : a.source = .register q)
    (hq : r.registers.used.contains q = true) (hc : 255 ≤ r.registers.lockCount q) :
    a.source.register?.forM lockUsed r = .error (.crash .sumTooLarge) r := by
  have hfault : r.registers.lock q = .error .lockOverflow := by
    rw [RegisterFile.lock, if_neg (Nat.not_le.mpr (hr.inRange_of_used hq).2), if_neg (by simp [hq])]
    exact if_pos hc
  rw [hs]
  change lockUsed q r = _
  rw [lockUsed_eq, if_pos hq, changeRegisters, hfault]
  rfl

/-- Locks of registers that have room for them. -/
theorem lockSources_spec (hr : r.registers.WellFormed)
    (hc : ∀ q, r.registers.used.contains q = true →
      r.registers.lockCount q + pending.countP (·.source = .register q) ≤ 255) :
    Runs (pending.forM fun a => a.source.register?.forM lockUsed) r fun _ r' =>
      Reregistered r r' := by
  refine .mono (Runs.forM (fun rest r' => Reregistered r r' ∧
    ∀ q, r'.registers.used.contains q = true →
      r'.registers.lockCount q + rest.countP (·.source = .register q) ≤ 255)
    ⟨⟨r.registers, rfl, hr, .refl _, rfl⟩, hc⟩ ?_) fun _ _ h => h.1
  rintro a rest _ ⟨⟨registers, rfl, hwell, hshape, howner⟩, hcount⟩
  simp only [List.countP_cons, decide_eq_true_eq] at hcount
  obtain ⟨g, hg, hgwell, hgshape, hgowner, hgused, hgcount⟩ :=
    lockSource_spec (r := { r with registers }) (a := a) hwell fun q hq hused => by
      have := hcount q hused
      rw [if_pos hq] at this
      exact Nat.lt_of_lt_of_le (Nat.lt_add_of_pos_right (Nat.succ_pos _)) this
  refine .of_eq hg ⟨⟨g, rfl, hgwell, hshape.trans hgshape, hgowner.trans howner⟩, fun x hx => ?_⟩
  have hx' : registers.used.contains x = true := hgused ▸ hx
  have := hcount x hx'
  rw [← Nat.add_assoc, Nat.add_right_comm] at this
  exact (congrArg (· + _) (hgcount x hx')).trans_le this

/-- Locks of registers of which one has no room for them. -/
theorem lockSources_overflows (hr : r.registers.WellFormed)
    (hq : r.registers.used.contains q = true) (hle : r.registers.lockCount q ≤ 255)
    (hc : 255 < r.registers.lockCount q + pending.countP (·.source = .register q)) :
    ∃ r', (pending.forM fun a => a.source.register?.forM lockUsed) r =
      .error (.crash .sumTooLarge) r' := by
  induction pending generalizing r with
  | nil => exact absurd hle (Nat.not_le.mpr hc)
  | cons a pending ih =>
    change ∃ r', (a.source.register?.forM lockUsed >>= fun _ =>
      pending.forM fun a => a.source.register?.forM lockUsed) r = _
    by_cases hroom : ∀ x, a.source = .register x → r.registers.used.contains x = true →
        r.registers.lockCount x < 255
    · obtain ⟨g, hg, hwell, -, -, hused, hcount⟩ := lockSource_spec hr hroom
      rw [bind_of_ok hg]
      refine ih hwell (hused ▸ hq) ?_ ?_
      · change g.lockCount q ≤ 255
        rw [hcount q hq]
        split
        next hs => exact hroom q hs hq
        next => exact hle
      · change 255 < g.lockCount q + _
        rw [hcount q hq, Nat.add_right_comm, Nat.add_assoc]
        simpa only [List.countP_cons, decide_eq_true_eq] using hc
    · push Not at hroom
      obtain ⟨x, hs, hx, hfull⟩ := hroom
      exact ⟨r, bind_of_error (lockSource_overflows hr hs hx hfull)⟩

/-! ## Values in the destinations -/

/-- A home that is not a slot made between two moments. -/
def Old (r r' : Routine) (p : Home) : Prop :=
  ∀ k, p = .slot (.temporary k) → k < r.temporaries ∨ r'.temporaries ≤ k

/-- Between the two moments only fresh slots were written. -/
def Spares (r r' : Routine) : Prop :=
  Carried r r' fun _ s t => ∀ p, Old r r' p → t.valueAt p = s.valueAt p

theorem Spares.refl (r : Routine) : Spares r r :=
  (Carried.refl r).mono fun _ _ _ _ _ ht _ _ => ht ▸ rfl

theorem Spares.trans (h : Spares r r') (h' : Spares r' r'') : Spares r r'' := by
  have hle := h.temporaries
  have hle' := h'.temporaries
  refine (Carried.trans h h').mono fun m s u _ _ => ?_
  rintro ⟨t, -, ht, hu⟩ p hp
  refine (hu p fun k hk => ?_).trans (ht p fun k hk => ?_)
  · exact (hp k hk).imp_left fun hlt => Nat.lt_of_lt_of_le hlt hle
  · exact (hp k hk).imp_right fun hge => Nat.le_trans hle' hge

/-- **A register is freed**, and the value in it goes to a fresh slot if it is needed. -/
theorem spill_spares (hr : r.Coherent) (hq : r.registers.InRange q) :
    Runs (spill q) r fun _ r' => r'.Coherent ∧
      RegisterFile.SameShape r.registers r'.registers ∧ Spares r r' := by
  unfold spill
  refine .step (a := r.registers.owner? q) rfl ?_
  cases howner : r.registers.owner? q with
  | none => exact .pure ⟨hr, .refl _, .refl r⟩
  | some v =>
    have hv := hr.owned q v hq howner
    obtain ⟨c, hc⟩ := Arena.exists_cell hv
    have hused := hr.registers.used_of_owner hq howner
    obtain ⟨g, hg, hgwell, hgshape, hgowner, -⟩ := RegisterFile.release_spec hr.registers hused
    have howned {n : Nat} (hn : n = r.values.size) (x : Register) (w : ValueId)
        (hx : g.InRange x) (hw : g.owner? x = some w) : w < n := by
      have hx' := hgshape.inRange.mp hx
      rw [hgowner x hx'] at hw
      split at hw
      next => cases hw
      next => exact hn ▸ hr.owned x w hx' hw
    refine .step (handleOf_eq hc) (.step (a := r) rfl (.step (isValid_eq hc _) ?_))
    split
    next =>
      obtain ⟨values, hvalues, hsize, hreceivers⟩ :=
        Arena.exists_setHandle hv (hr.received v) (.temporarySlot r.temporaries .qword)
      refine .step (a := r.temporaries) rfl (.step (a := ()) rfl (.step (a := ())
        (changeValues_eq hvalues) (.step (a := ()) rfl (.of_eq (changeRegisters_eq g hg) ?_))))
      refine ⟨⟨hgwell, howned hsize, fun w x hx => ?_⟩, hgshape, ?_⟩
      · rw [hreceivers w] at hx
        exact hsize ▸ hr.received w x hx
      · refine ⟨[⟨.move, [.memory (.displaced (.slot (.temporary r.temporaries)) 0), .register q]⟩],
          ⟨rfl, Nat.le_succ _, List.prefix_refl _, rfl⟩, fun m s _ => ?_⟩
        refine ⟨_, execute_singleton (perform_store (by simp)), kept_store, fun p hp => ?_⟩
        rw [valueAt_store_slot, if_neg]
        rintro rfl
        have := hp _ rfl
        change r.temporaries < r.temporaries ∨ r.temporaries + 1 ≤ r.temporaries at this
        omega
    next =>
      refine .of_eq (changeRegisters_eq g hg) ⟨⟨hgwell, howned rfl, hr.received⟩, hgshape, ?_⟩
      exact ⟨[], ⟨rfl, Nat.le_refl _, List.prefix_refl _, by simp⟩, fun m s _ =>
        ⟨s, rfl, .refl m s, fun _ _ => rfl⟩⟩

theorem saveDestination_spares (hr : r.Coherent) {kept : List ValueId}
    (ha : ∀ d, a.destination = .register d → r.registers.InRange d) :
    Runs (saveDestination pending kept a) r fun _ r' => r'.Coherent ∧
      RegisterFile.SameShape r.registers r'.registers ∧ Spares r r' := by
  have hsame : r.Coherent ∧ RegisterFile.SameShape r.registers r.registers ∧ Spares r r :=
    ⟨hr, .refl _, .refl r⟩
  unfold saveDestination
  split
  next d hd =>
    refine .step (a := r.registers.owner? d) rfl ?_
    cases howner : r.registers.owner? d with
    | none => exact .pure hsame
    | some v =>
      obtain ⟨c, hc⟩ := Arena.exists_cell (hr.owned d v (ha d hd) howner)
      refine .step (a := r) rfl (.step (isValid_eq hc _) ?_)
      refine .step (handleOf_eq hc) ?_
      dsimp only
      split
      next => exact spill_spares hr (ha d hd)
      next => exact .pure hsame
  next => exact .pure hsame

/-- **Values in the destinations** go to fresh slots if they are needed. -/
theorem saveDestinations_spec (hr : r.Coherent) (kept : List ValueId)
    (hp : ∀ a ∈ pending, ∀ d, a.destination = .register d → r.registers.InRange d) :
    Runs (pending.forM (saveDestination pending kept)) r fun _ r' => Spares r r' := by
  refine .mono (Runs.forM (fun rest r' => r'.Coherent ∧
    RegisterFile.SameShape r.registers r'.registers ∧ Spares r r' ∧ rest ⊆ pending)
    ⟨hr, .refl _, .refl r, List.Subset.refl _⟩ ?_) fun _ _ h => h.2.2.1
  rintro a rest r₁ ⟨hr₁, hshape, hspares, hsub⟩
  have ha (d : Register) (hd : a.destination = .register d) : r₁.registers.InRange d :=
    hshape.inRange.mpr (hp a (hsub List.mem_cons_self) d hd)
  refine .mono (saveDestination_spares hr₁ ha) fun _ r₂ h => ?_
  exact ⟨h.1, hshape.trans h.2.1, hspares.trans h.2.2, fun b hb => hsub (List.mem_cons_of_mem _ hb)⟩

/-! ## The move -/

/-- What a parallel move does from a state of the machine to another: **each destination has the
value that its source had**, and of all other homes only the scratch registers and fresh slots may
have other words. -/
structure Simultaneous (r r' : Routine) (moves : List (Handle × ValueId)) (m : Machine)
    (s t : State) : Prop where
  assigned : ∀ a ∈ moves, ∀ c p, r.values.cell? a.2 = some c → a.1.home? = some p →
    t.valueAt p = m.sourceWord s c.format c.handle
  kept : ∀ p, (∀ a ∈ moves, a.1.home? ≠ some p) →
    (∀ d, p = .register d → ¬ r.target.IsReserved d) → Old r r' p → t.valueAt p = s.valueAt p

theorem locks_of_canMove (hm : r.CanMove moves) (hl : r.HasLocks moves)
    (hq : r.registers.used.contains q = true) :
    r.registers.lockCount q +
      (moves.filterMap r.assignmentOf).countP (·.source = .register q) ≤ 255 := by
  refine Nat.le_trans (Nat.add_le_add_left ?_ _) (hl q hq)
  rw [List.countP_filterMap]
  refine List.countP_mono_left fun move hmove hread => ?_
  obtain ⟨c, hc, -⟩ := hm.movable move hmove
  rw [Routine.assignmentOf, hc, Option.bind_some] at hread
  rw [Arena.handleAt_eq hc]
  split at hread
  next => cases hread
  next => exact hread

/-- What the assignments do after values went to fresh slots. -/
theorem simultaneous_of_made {m : Machine} {s s₁ t : State} (hm : r.CanMove moves)
    (hs : m.Serves r s) (hk : Kept m s s₁) (hle : r'.temporaries ≤ r''.temporaries)
    (hspared : ∀ p, Old r r' p → s₁.valueAt p = s.valueAt p)
    (hmade : Made r.target (moves.filterMap r.assignmentOf) m s₁ t) :
    Simultaneous r r'' moves m s t := by
  have hold {f : Format} {p : Home} (hp : r.Offers f p) : s₁.valueAt p = s.valueAt p :=
    hspared p fun k hk => .inl (hp.temporary k hk)
  refine ⟨fun move hmove c p hc hdest => ?_, fun p hdest hreserved hp => ?_⟩
  · obtain ⟨-, hfrom, p', hp', hto⟩ := hm.of_cell hmove hc
    obtain rfl := Option.some.inj (hdest.symm.trans hp')
    by_cases hthere : c.handle = move.1
    · -- the value is there already, and no assignment goes to its home
      rw [sourceWord_home (hthere ▸ hdest), ← hold hto]
      refine hmade.2 p (fun a ha hap => ?_) fun d hd hr => ?_
      · obtain ⟨other, hother, x, hx, hne, rfl⟩ := mem_pending ha
        obtain rfl := List.inj_on_of_nodup_map hm.distinct hother hmove (hap.trans hdest.symm)
        obtain rfl := Option.some.inj (hc.symm.trans hx)
        exact hne hthere
      · subst hd
        exact hto.home.2.2 hr
    · have ha : (⟨move.1, c.handle, c.format⟩ : Assignment) ∈ moves.filterMap r.assignmentOf := by
        refine List.mem_filterMap.mpr ⟨move, hmove, ?_⟩
        rw [Routine.assignmentOf, hc, Option.bind_some, if_neg hthere]
      rw [hmade.1 _ ha p hdest]
      exact sourceWord_eq hs hk fun q hq => hold (hfrom q hq)
  · rw [hmade.2 p (fun a ha => ?_) hreserved]
    · exact hspared p fun k hk => (hp k hk).imp_right fun hge => Nat.le_trans hle hge
    · obtain ⟨move, hmove, c, -, -, rfl⟩ := mem_pending ha
      exact hdest move hmove

/-- **A parallel move is a simultaneous assignment.** While lock counts have room it succeeds, and
on every machine that the operations of the routine can run on, the operations that it emits run to
their end and give each destination the value that its source had before the first of them. -/
theorem parallelMove_simultaneous (hr : r.Coherent) (hm : r.CanMove moves) (hl : r.HasLocks moves)
    (replaced : List ValueId) :
    ∃ r' ops, parallelMove moves replaced r = .ok () r' ∧ r'.operations = r.operations ++ ops ∧
      ∀ (m : Machine) (s : State), m.Serves r' s →
        ∃ t, m.execute ops s = some t ∧ m.Kept s t ∧ Simultaneous r r' moves m s t := by
  have hpending : moves.filterMapM assignment? r = .ok (moves.filterMap r.assignmentOf) r :=
    filterMapM_eq fun move hmove => assignment?_eq hm hmove
  have hinRange (a : Assignment) (ha : a ∈ moves.filterMap r.assignmentOf) (d : Register)
      (hd : a.destination = .register d) : r.registers.InRange d := by
    obtain ⟨move, hmove, c, hc, -, rfl⟩ := mem_pending ha
    obtain ⟨-, -, p, hp, hoffers⟩ := hm.of_cell hmove hc
    exact hoffers.register d (Option.some.inj (hp.symm.trans (Handle.home?_eq_register.mpr hd)))
  -- the locks change registers only
  obtain ⟨_, r₁, hlock, registers, rfl, hwell, hshape, howner⟩ :=
    lockSources_spec hr.registers fun q => locks_of_canMove hm hl
  have hr₁ : Routine.Coherent { r with registers } :=
    ⟨hwell, fun q v hq hv => hr.owned q v (hshape.inRange.mp hq) (howner ▸ hv), hr.received⟩
  obtain ⟨_, r₂, hsave, hspares⟩ := saveDestinations_spec hr₁
    (moves.map (·.2) ++ replaced) fun a ha d hd => hshape.inRange.mpr (hinRange a ha d hd)
  obtain ⟨_, r₃, hassign, hmade⟩ := assignAll_carried (r := r₂)
    (hspares.target ▸ planned_of_canMove hm) (.inl (Nat.le_refl _))
  rw [hspares.target] at hmade
  obtain ⟨ops, hext, hops⟩ := Carried.trans hspares hmade
  refine ⟨r₃, ops, ?_, hext.operations, fun m s hs => ?_⟩
  · unfold parallelMove
    rw [bind_of_ok hpending, bind_of_ok hlock, bind_of_ok hsave]
    exact hassign
  · obtain ⟨t, ht, hk, s₁, ⟨hs₁, hk₁⟩, hspared, hmade'⟩ := hops m s hs
    exact ⟨t, ht, hk, simultaneous_of_made hm ⟨hs₁.architecture, hs₁.data, hs₁.apart⟩ hk₁
      hmade.temporaries (show ∀ p, Old r r₂ p → s₁.valueAt p = s.valueAt p from hspared) hmade'⟩

/-! ## An exchange beside a constant -/

/-- A register file in which some values own registers. -/
def heldIn (f : RegisterFile) (held : List (Register × ValueId)) : RegisterFile :=
  held.foldl (fun f h => (f.assign h.1 h.2).toOption.getD f) f

theorem heldIn_spec {f : RegisterFile} {held : List (Register × ValueId)} {n : Nat}
    (hf : f.WellFormed) (hn : ∀ q v, f.InRange q → f.owner? q = some v → v < n)
    (hheld : ∀ h ∈ held, f.InRange h.1 ∧ h.2 < n) :
    (heldIn f held).WellFormed ∧ RegisterFile.SameShape f (heldIn f held) ∧
      (∀ q v, (heldIn f held).InRange q → (heldIn f held).owner? q = some v → v < n) ∧
      ∀ q, (heldIn f held).lockCount q = f.lockCount q := by
  induction held generalizing f with
  | nil => exact ⟨hf, .refl f, hn, fun _ => rfl⟩
  | cons h held ih =>
    rw [List.forall_mem_cons] at hheld
    obtain ⟨g, hg, hwell, hshape, howner, hlocks⟩ :=
      RegisterFile.assign_spec hf hheld.1.1 h.2
    have hstep : heldIn f (h :: held) = heldIn g held := by
      rw [heldIn, List.foldl_cons, hg]
      rfl
    obtain ⟨hwell', hshape', howner', hlocks'⟩ := ih hwell (fun q v hq hv => by
      have hq' := hshape.inRange.mp hq
      rw [howner q hq'] at hv
      split at hv
      · exact Option.some.inj hv ▸ hheld.1.2
      · exact hn q v hq' hv) fun x hx =>
      ⟨hshape.inRange.mpr (hheld.2 x hx).1, (hheld.2 x hx).2⟩
    rw [hstep]
    exact ⟨hwell', hshape.trans hshape', howner', fun q => (hlocks' q).trans (hlocks q)⟩

/-- Values in three registers, and a constant. -/
def crossingValues : Arena :=
  let lived (r : Nat) : Cell := ⟨.register (.general r), .i64, ⟨[], false, false⟩, ⟨0, 9⟩, none, []⟩
  ⟨#[lived 0, lived 1, lived 2, ⟨.constant (.integer 5), .i64, ⟨[], true, false⟩, ⟨0, 9⟩, none, []⟩]⟩

/-- A routine that is at an instruction with three values in registers. -/
def crossing : Routine :=
  { (default : Routine) with
    config := .ofArchitecture .x64
    values := crossingValues
    registers := heldIn Target.x64.registerFile
      [(.general 0, 0), (.general 1, 1), (.general 2, 2)] }

/-- Two values change their places, one of them goes to a slot too, and the third one makes room for
a constant although it is needed later. -/
def crossingMoves : List (Handle × ValueId) :=
  [(.register (.general 0), 1), (.register (.general 1), 0), (.register (.general 2), 3),
    (.variableSlot 0, 0)]

theorem crossing_registers : crossing.registers.WellFormed ∧
    RegisterFile.SameShape Target.x64.registerFile crossing.registers ∧
    (∀ q v, crossing.registers.InRange q → crossing.registers.owner? q = some v → v < 4) ∧
    ∀ q, crossing.registers.lockCount q = Target.x64.registerFile.lockCount q := by
  refine heldIn_spec (RegisterFile.wellFormed_ofShape (by decide) (by decide)) (fun q v _ hv => ?_)
    (by simp only [RegisterFile.InRange]; decide)
  rw [show Target.x64.registerFile.owner? q = none from RegisterFile.owner?_ofShape] at hv
  cases hv

theorem crossing_coherent : crossing.Coherent := by
  refine ⟨crossing_registers.1, crossing_registers.2.2.1, fun v w hw => ?_⟩
  have hreceivers : crossing.values.receivers v = [] := by
    match v with
    | 0 | 1 | 2 | 3 => rfl
    | _ + 4 => rfl
  rw [hreceivers] at hw
  cases hw

theorem crossing_offers {k : Nat} (hk : k < 3) :
    crossing.Offers .i64 (.register (.general k)) := by
  refine ⟨⟨rfl, ?_, ?_⟩, ?_, fun _ h => Home.noConfusion h⟩
  · rintro ⟨⟩
    omega
  · rintro ⟨f, hf⟩
    cases f <;> cases hf
  · rintro _ ⟨⟩
    refine crossing_registers.2.1.inRange.mpr ⟨Nat.lt_trans hk (by decide), ?_⟩
    change 0 * 32 + k < 64
    omega

theorem crossing_canMove : crossing.CanMove crossingMoves := by
  refine ⟨?_, by decide, ?_⟩
  · simp only [crossingMoves, List.forall_mem_cons]
    refine ⟨⟨_, rfl, rfl, ?_, _, rfl, crossing_offers (by decide)⟩,
      ⟨_, rfl, rfl, ?_, _, rfl, crossing_offers (by decide)⟩,
      ⟨_, rfl, .inr rfl, fun _ h => (nomatch h), _, rfl, crossing_offers (by decide)⟩,
      ⟨_, rfl, rfl, ?_, _, rfl, ⟨trivial, ?_, ?_⟩⟩, fun _ h => nomatch h⟩
    iterate 3 exact fun p hp => Option.some.inj hp ▸ crossing_offers (by decide)
    iterate 2 exact fun _ h => nomatch h
  · have hregisters : ∀ b ∈ crossingMoves, ∀ k,
        (crossing.values.handleAt b.2).home? ≠ some (.slot k) := by
      simp only [crossingMoves, List.forall_mem_cons]
      exact ⟨fun _ h => (nomatch h), fun _ h => (nomatch h), fun _ h => (nomatch h),
        fun _ h => (nomatch h), fun _ h => (nomatch h)⟩
    exact fun a _ b hb _ k _ => hregisters b hb k

theorem crossing_hasLocks : crossing.HasLocks crossingMoves := by
  intro q _
  have hcount := List.countP_le_length
    (p := fun a => decide (crossing.values.handleAt a.2 = .register q)) (l := crossingMoves)
  have hlength : crossingMoves.length = 4 := rfl
  rw [crossing_registers.2.2.2 q, show Target.x64.registerFile.lockCount q = 0 from
    RegisterFile.lockCount_reset (f := Target.x64.registerFile)]
  omega

/-- A machine before the moves. -/
def crossingState : State where
  registers r := if r = .general 4 then 4096 else .ofNat (r.id + 10)
  memory _ := 0
  slots _ := 0
  flags? := none

/-- Two words change their places, and the slot and the third register get theirs. -/
theorem crossing_simultaneous : ∃ r' t, parallelMove crossingMoves [] crossing = .ok () r' ∧
    r'.operations.length = 4 ∧
    Machine.execute ⟨.x64, fun _ => 0, fun _ => 0⟩ r'.operations crossingState = some t ∧
    t.registers (.general 0) = 11 ∧ t.registers (.general 1) = 10 ∧ t.registers (.general 2) = 5 ∧
    t.slots (.ofVariable 0) = 10 := by
  have hmade : (match parallelMove crossingMoves [] crossing with
      | .ok _ r' => (r'.config, r'.constants, r'.operations.length)
      | .error _ r' => (r'.config, r'.constants, 0)) = (.ofArchitecture .x64, [], 4) := by
    cbv
  obtain ⟨r', ops, hmove, hops, hrun⟩ :=
    parallelMove_simultaneous crossing_coherent crossing_canMove crossing_hasLocks []
  obtain rfl : r'.operations = ops := hops
  rw [hmove] at hmade
  obtain ⟨hconfig, hmade⟩ := Prod.mk.inj hmade
  obtain ⟨hconstants, hlength⟩ := Prod.mk.inj hmade
  have hserves : Machine.Serves ⟨.x64, fun _ => 0, fun _ => 0⟩ r' crossingState :=
    ⟨(congrArg Config.architecture hconfig).symm, by simp [hconstants], fun _ _ =>
      show (0 : Word) ≠ 4096 - 8 by decide⟩
  obtain ⟨t, ht, -, hassigned, -⟩ := hrun _ _ hserves
  exact ⟨r', t, hmove, hlength, ht,
    hassigned (.register (.general 0), 1) (by decide) _ _ rfl rfl,
    hassigned (.register (.general 1), 0) (by decide) _ _ rfl rfl,
    hassigned (.register (.general 2), 3) (by decide) _ _ rfl rfl,
    hassigned (.variableSlot 0, 0) (by decide) _ _ rfl rfl⟩

/-! ## More moves than a lock count has room for -/

/-- **The room of lock counts is needed.** A register that more assignments read crashes the move.
-/
theorem parallelMove_overflows (hr : r.registers.WellFormed) (hm : r.CanMove moves)
    (hq : r.registers.used.contains q = true) (hle : r.registers.lockCount q ≤ 255)
    (hc : 255 < r.registers.lockCount q +
      (moves.filterMap r.assignmentOf).countP (·.source = .register q)) (replaced : List ValueId) :
    ∃ r', parallelMove moves replaced r = .error (.crash .sumTooLarge) r' := by
  obtain ⟨r', hlocks⟩ := lockSources_overflows hr hq hle hc
  refine ⟨r', ?_⟩
  unfold parallelMove
  rw [bind_of_ok (filterMapM_eq fun move hmove => assignment?_eq hm hmove)]
  exact bind_of_error hlocks

/-- A word goes to 256 slots. -/
def crowdedMoves : List (Handle × ValueId) :=
  (List.range 256).map fun k => (.variableSlot k, 0)

theorem crowded_canMove : crossing.CanMove crowdedMoves := by
  have hmem (a : Handle × ValueId) (ha : a ∈ crowdedMoves) : ∃ k, a = (.variableSlot k, 0) := by
    obtain ⟨k, -, rfl⟩ := List.mem_map.mp ha
    exact ⟨k, rfl⟩
  refine ⟨fun a ha => ?_, ?_, fun a _ b hb _ k _ h => ?_⟩
  · obtain ⟨k, rfl⟩ := hmem a ha
    refine ⟨_, rfl, rfl, fun p hp => Option.some.inj hp ▸ crossing_offers (by decide), _, rfl, ?_⟩
    exact ⟨trivial, fun _ h => (nomatch h), fun _ h => (nomatch h)⟩
  · rw [crowdedMoves, List.map_map]
    refine List.Nodup.map (fun j k h => ?_) List.nodup_range
    cases h
    rfl
  · obtain ⟨j, rfl⟩ := hmem b hb
    cases h

/-- 256 moves that can be made at once read one register. -/
theorem crowded_overflows : crossing.Coherent ∧ crossing.CanMove crowdedMoves ∧
    ∃ r', parallelMove crowdedMoves [] crossing = .error (.crash .sumTooLarge) r' := by
  have hwell := crossing_registers.1
  have hrange : crossing.registers.InRange (.general 0) :=
    (crossing_offers (k := 0) (by decide)).register _ rfl
  have hlock : crossing.registers.lockCount (.general 0) = 0 := crossing_registers.2.2.2 _
  have hreads : (crowdedMoves.filterMap crossing.assignmentOf).countP
      (·.source = .register (.general 0)) = 256 := by
    decide +kernel
  refine ⟨crossing_coherent, crowded_canMove, parallelMove_overflows (q := .general 0) hwell
    crowded_canMove (hwell.used_of_owner (v := 0) hrange (by decide)) ?_ ?_ []⟩
  · rw [hlock]
    decide
  · rw [hlock, hreads]
    decide

end Generating

end Codegen
