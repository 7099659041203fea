import Codegen.Proofs.Lifetime.Held
import Codegen.Proofs.Compilation
import Codegen.Proofs.Lowering.Leaders
import Codegen.Proofs.Lowering.Preserved
import Codegen.Proofs.Register.Owned
import Codegen.Proofs.Selection.Evacuation

/-!
# Leaders own the registers

Instructions name leaders only, so while they are built only leaders get registers, and places are
computed from leaders only. Hence no owner of a register sends its changes to another one, and a
call can be prepared wherever the build of a function comes to one.

* `Register.IsPhysical`: a register of an architecture;
* `Routine.Ruled`: **what the build keeps of registers and their owners**;
* `ruled_placing`: the changes of a build;
* `releaseExpired_leaves`: behind a release, every owner is at home and needed;
* `Led.ruled_awaits`, `Led.evacuable`: **all states that the build of a function comes to**;
* `Lowered.evacuation_saves`: **all values that outlive a call are brought to safety**.
-/

namespace Codegen

variable {q : Register} {v w : ValueId} {a : Arena} {r r₁ r' : Routine} {p : Nat} {u : Unit}

/-! ## Registers of an architecture -/

/-- A register that every architecture has room for. -/
def Register.IsPhysical (q : Register) : Prop := q.id < 32 ∧ q.bank < 2

instance : Decidable q.IsPhysical := inferInstanceAs (Decidable (_ ∧ _))

namespace Target

theorem mem_distribute {t : Target} {general media qs : List Register} {formats : List Format}
    (h : t.distribute general media formats = .ok qs) (hq : q ∈ qs) : q ∈ general ∨ q ∈ media := by
  induction formats generalizing general media qs with
  | nil =>
    obtain rfl := Except.ok.inj h
    cases hq
  | cons f formats ih =>
    unfold distribute at h
    split at h
    · cases media with
      | nil => cases h
      | cons x media =>
        obtain ⟨xs, hxs, h⟩ := Arena.bind_eq_ok.mp h
        obtain rfl := Except.ok.inj h
        rcases List.mem_cons.mp hq with rfl | hq
        · exact .inr List.mem_cons_self
        · exact (ih hxs hq).imp_right (List.mem_cons_of_mem _)
    · cases general with
      | nil => cases h
      | cons x general =>
        obtain ⟨xs, hxs, h⟩ := Arena.bind_eq_ok.mp h
        obtain rfl := Except.ok.inj h
        rcases List.mem_cons.mp hq with rfl | hq
        · exact .inl List.mem_cons_self
        · exact (ih hxs hq).imp_left (List.mem_cons_of_mem _)

theorem wellFormed_registerFile (t : Target) : t.registerFile.WellFormed :=
  RegisterFile.wellFormed_ofShape (by decide) (by decide)

end Target

namespace Architecture

theorem isPhysical_of_argument (a : Architecture) {formats : List Format} {qs : List Register}
    (h : a.target.argumentRegisters formats = .ok qs) (hq : q ∈ qs) : q.IsPhysical := by
  have hparameters : (∀ q ∈ a.target.parameters, q.IsPhysical) ∧
      ∀ q ∈ a.target.mediaParameters, q.IsPhysical := by
    cases a <;> decide
  exact (Target.mem_distribute h hq).elim (hparameters.1 q) (hparameters.2 q)

theorem isPhysical_resultRegister (a : Architecture) (f : Format) :
    (a.target.resultRegister f).IsPhysical := by
  cases a <;> cases f <;> decide

end Architecture

/-! ## The invariant -/

/-- A place that is computed from leaders, or a register of the architecture. -/
abbrev Handle.Ruled (a : Arena) (h : Handle) : Prop := h.Fits a.Leads Register.IsPhysical

/-- A register file of the routine whose owners are leaders. -/
abbrev Routine.RuledFile (a : Arena) (r : Routine) (f : RegisterFile) : Prop :=
  RegisterFile.OwnedBy r.target.registerFile a.Leads f

/-- **Leaders of an arena own the registers, and places are computed from leaders**, now and in all
that was recorded. The values of the routine have the edges of the arena. -/
structure Routine.Ruled (a : Arena) (r : Routine) : Prop where
  edges : a.SameEdges r.values
  handles : r.values.AllHandles (Handle.Ruled a)
  registers : r.RuledFile a r.registers
  snapshots : ∀ s ∈ r.snapshots, (∀ h ∈ s.2.handles, h.Ruled a) ∧
    ∃ f, r.RuledFile a f ∧ s.2.occupancy = f.occupancy
  entries : ∀ e ∈ r.entries, ∀ x ∈ e.2, x.handle.Ruled a

theorem RegisterFile.OwnedBy.isPhysical {t : Target} {P : ValueId → Prop} {f : RegisterFile}
    (h : OwnedBy t.registerFile P f) (hq : f.InRange q) : q.IsPhysical :=
  Target.inRange_registerFile.mp (h.inRange.mp hq)

theorem Arena.leads_of_size_le (h : a.size ≤ v) : a.Leads v := by
  refine leads_of_alone (List.eq_nil_iff_forall_not_mem.mpr fun w hw => ?_)
  exact Nat.not_lt.mpr h (lt_size_of_mem_neighbours hw)

namespace Generating

variable {f : Format}

theorem handleOf_ruled : Ensures (Routine.Ruled a) (handleOf v) (Handle.Ruled a) :=
  fun _ _ _ hr h => by
    obtain ⟨⟨c, hc, rfl⟩, rfl⟩ := takes_handleOf.mp h
    exact ⟨hr, hr.handles v c hc⟩

theorem registers_ruled {k : RegisterFile → Except RegisterError RegisterFile}
    (hk : ∀ r : Routine, ∀ f g, r.RuledFile a f → k f = .ok g → r.RuledFile a g) :
    Preserves (Routine.Ruled a) (changeRegisters k) :=
  .changeRegisters fun r registers hr hg =>
    { hr with registers := hk r r.registers registers hr.registers hg }

/-- A search that finds registers of the architecture only. -/
theorem search_ruled {k : RegisterFile → Option (Option Register)}
    (hk : ∀ r : Routine, ∀ g, r.RuledFile a g →
      ∃ found, k g = some found ∧ ∀ q, found = some q → q.IsPhysical) :
    Ensures (Routine.Ruled a) (ask fun r => Fault.expect .missing (k r.registers)) fun o =>
      ∀ q, o = some q → q.IsPhysical := fun r o r' hr h => by
  obtain ⟨h, rfl⟩ := takes_ask.mp h
  obtain ⟨found, hfound, hphysical⟩ := hk _ _ hr.registers
  rw [hfound] at h
  obtain rfl := Except.ok.inj h
  exact ⟨hr, hphysical⟩

theorem free?_ruled : Ensures (Routine.Ruled a) (free? f.bank) fun o =>
    ∀ q, o = some q → q.IsPhysical := by
  refine search_ruled (k := fun g => g.free? f.bank .empty) fun r g hg => ?_
  obtain ⟨found, hfound, hfree, -⟩ :=
    RegisterFile.free?_spec hg.wellFormed.width_le (Nat.lt_trans f.bank_lt (by decide)) .empty
  refine ⟨found, hfound, fun q hq => ?_⟩
  obtain ⟨hbank, hfree, -⟩ := hfree q hq
  exact hg.isPhysical (hg.shape.inRange_of_isFree hbank hfree)

theorem freePreserved?_ruled : Ensures (Routine.Ruled a) (freePreserved? f.bank) fun o =>
    ∀ q, o = some q → q.IsPhysical := by
  refine search_ruled (k := fun g => g.freeOfClass? f.bank false .empty) fun r g hg => ?_
  obtain ⟨found, hfound, hfree, -⟩ := RegisterFile.freeOfClass?_spec hg.wellFormed.width_le
    (Nat.lt_trans f.bank_lt (by decide)) false .empty
  refine ⟨found, hfound, fun q hq => ?_⟩
  obtain ⟨hbank, hfree, -⟩ := hfree q hq
  exact hg.isPhysical (hg.shape.inRange_of_isFree hbank hfree)

theorem victim_ruled : Ensures (Routine.Ruled a) (victim f.bank) Register.IsPhysical :=
  fun r q r' hr h => by
    unfold Takes victim at h
    split at h
    next q' g hq =>
      cases h
      have hfound : (r.registers.evictable? f.bank .empty).1 = some q := by rw [hq]
      have hg := hr.registers.evict f.bank .empty
      rw [hq] at hg
      exact ⟨{ hr with registers := hg },
        Target.inRange_registerFile.mp (hr.registers.inRange_of_evictable? hfound)⟩
    next => cases h

theorem rehome_ruled {h : Handle} (hh : h.Ruled a) :
    Preserves (Routine.Ruled a) (setHandle v h) := .changeValues fun _ _ hr hv =>
  { hr with
    edges := hr.edges.trans (Arena.updateAll_sameEdges hv fun _ => rfl)
    handles := hr.handles.setHandle hh hv }

theorem createBriefly_ruled {h : Handle} (hh : h.Ruled a) :
    Ensures (Routine.Ruled a) (createBriefly h f) a.Leads := by
  refine .bind (P := a.Leads) (fun r v r' hr h' => ?_) fun v hv =>
    .seq Ensures.get.preserves fun _ => .seq (.changeValues fun r values hr hu => ?_) fun _ =>
      .pure hv
  · obtain ⟨rfl, rfl⟩ := takes_create.mp h'
    refine ⟨{ hr with
      edges := hr.edges.trans (Arena.create_sameEdges _ _ _)
      handles := hr.handles.create hh }, Arena.leads_of_size_le hr.edges.size⟩
  · exact { hr with
      edges := hr.edges.trans (Arena.useAt_sameEdges hu)
      handles := hr.handles.useAt hu }

theorem saveSnapshot_ruled : Preserves (Routine.Ruled a) (saveSnapshot p) := .modify fun r hr =>
  { hr with
    snapshots := List.forall_mem_cons.mpr
      ⟨⟨hr.handles.mem_handles, r.registers, hr.registers, rfl⟩, hr.snapshots⟩ }

theorem restoreSnapshot_ruled : Preserves (Routine.Ruled a) (restoreSnapshot p) :=
  fun r u r' hr h => by
    simp only [restoreSnapshot, takes_bind, takes_get, takes_required, takes_modify] at h
    obtain ⟨_, _, ⟨rfl, rfl⟩, s, _, ⟨hs, rfl⟩, rfl⟩ := h
    obtain ⟨before, after, hsplit, -⟩ := List.lookup_eq_some_iff.mp hs
    obtain ⟨hhandles, f, hf, hoccupancy⟩ := hr.snapshots (p, s) (by simp [hsplit])
    have hrestored := hr.registers.restore hf
    rw [← hoccupancy] at hrestored
    exact ⟨{ hr with
      edges := hr.edges.trans (Arena.restoreHandles_sameEdges _ _ _)
      handles := hr.handles.restoreHandles hhandles
      registers := hrestored }, trivial⟩

theorem recordEntry_ruled {actives : List Binding} :
    Preserves (Routine.Ruled a) (recordEntry p actives) := by
  have recorded (y : Binding) : Ensures (Routine.Ruled a) (do return ⟨y.1, y.2, ← handleOf y.2⟩)
      fun x : Entry => x.handle.Ruled a := .last handleOf_ruled fun _ => id
  refine .bind (Ensures.mapM fun y _ => recorded y) fun xs hxs => .modify fun r hr => ?_
  exact { hr with entries := List.forall_mem_cons.mpr ⟨hxs, hr.entries⟩ }

/-- **The changes of a build keep leaders in charge.** -/
theorem ruled_placing (a : Arena) : Placing a.Leads Register.IsPhysical (Routine.Ruled a) where
  congr {r r'} hr hc hv hg hs he := by
    have ht : r'.target = r.target := congrArg (fun c : Config => c.architecture.target) hc
    refine ⟨hv ▸ hr.edges, hv ▸ hr.handles, ?_, ?_, he ▸ hr.entries⟩
    · rw [Routine.RuledFile, ht, hg]
      exact hr.registers
    · rw [hs]
      unfold Routine.RuledFile
      rw [ht]
      exact hr.snapshots
  handle := handleOf_ruled
  occupants hr _ hx := hr.registers.of_mem_occupants hx
  entries hr := hr.entries
  arguments {r} _ _ _ h _ := r.architecture.isPhysical_of_argument h
  result {r} _ := r.architecture.isPhysical_resultRegister
  free := free?_ruled
  preserved := freePreserved?_ruled
  evict := victim_ruled
  assign hq hv := registers_ruled fun _ _ _ h => h.assign (Target.inRange_registerFile.mpr hq) hv
  release := registers_ruled fun _ _ _ h => h.release
  protect := registers_ruled fun _ _ _ h => h.lock
  unlockAll hr := { hr with registers := hr.registers.unlockAll }
  rehome hh hq := rehome_ruled ⟨by simp [hh], hq⟩
  createBriefly hh hq := createBriefly_ruled ⟨by simp [hh], fun q hq' => absurd hq' (hq q)⟩
  saveSnapshot := saveSnapshot_ruled
  restoreSnapshot := restoreSnapshot_ruled
  recordEntry := recordEntry_ruled

/-! ## Owners behind a release -/

/-- **Behind a release, every owner of a register is in it and is needed.** -/
theorem releaseExpired_leaves (hr : r.registers.WellFormed) (h : Takes releaseExpired r u r') :
    r'.values = r.values ∧ r'.position = r.position ∧
      ∀ q v, (q, v) ∈ r'.registers.occupants → r'.Lives q v := by
  obtain ⟨s₀, s₁, hget, h⟩ := takes_bind.mp h
  obtain ⟨hs₀, hs₁⟩ := takes_get.mp hget
  rw [hs₀, hs₁] at h
  have hloop := takes_forM (fun rest s => s.registers.WellFormed ∧ s.values = r.values ∧
      s.position = r.position ∧
      ∀ q v, (q, v) ∈ s.registers.occupants → (q, v) ∈ rest ∨ s.Lives q v) h
    ⟨hr, rfl, rfl, fun q v => .inl⟩ ?_
  · obtain ⟨-, hvalues, hposition, hlives⟩ := hloop
    exact ⟨hvalues, hposition, fun q v hm => (hlives q v hm).resolve_left List.not_mem_nil⟩
  rintro ⟨x, w⟩ rest s _ s' - hstep ⟨hwell, hvalues, hposition, hlives⟩
  simp only [takes_bind, takes_handleOf, takes_get] at hstep
  obtain ⟨_, _, ⟨⟨c, hc, rfl⟩, rfl⟩, _, _, ⟨rfl, rfl⟩, valid, _, hvalid, hstep⟩ := hstep
  cases (hvalid : _ = _).symm.trans (isValid_eq hc _)
  split at hstep
  next =>
    obtain ⟨g, hg, rfl⟩ := takes_changeRegisters.mp hstep
    obtain ⟨_, hg', hgwell, hgshape, howner, -⟩ :=
      RegisterFile.release_spec hwell (RegisterFile.used_of_release hg)
    obtain rfl := Except.ok.inj (hg.symm.trans hg')
    refine ⟨hgwell, hvalues, hposition, fun q v hm => ?_⟩
    obtain ⟨hq, hv⟩ := (RegisterFile.mem_occupants hgwell).mp hm
    have hq := hgshape.inRange.mp hq
    rw [howner q hq] at hv
    split at hv
    next => cases hv
    next hne =>
      refine (hlives q v ((RegisterFile.mem_occupants hwell).mpr ⟨hq, hv⟩)).imp_left fun hm => ?_
      rcases List.mem_cons.mp hm with heq | hm
      · exact absurd (congrArg Prod.fst heq) hne
      · exact hm
  next hkept =>
    obtain ⟨-, rfl⟩ := takes_pure.mp hstep
    refine ⟨hwell, hvalues, hposition, fun q v hm => ?_⟩
    rcases hlives q v hm with hm | hlives
    · rcases List.mem_cons.mp hm with heq | hm
      · obtain ⟨rfl, rfl⟩ := Prod.mk.inj heq
        simp only [Bool.or_eq_true, bne_iff_ne, ne_eq, Bool.not_eq_true', not_or, not_not,
          Bool.not_eq_false] at hkept
        have hhandle := Handle.register?_eq_some.mp hkept.1
        exact .inr ⟨(Arena.handleAt_eq hc).trans hhandle, c, hc, hkept.2⟩
      · exact .inl hm
    · exact .inr hlives

end Generating

/-! ## The states of a build -/

open Generating

/-- **Nothing is placed yet.** -/
structure Routine.Unplaced (r : Routine) : Prop where
  registers : r.registers = r.target.registerFile
  snapshots : r.snapshots = []
  entries : r.entries = []

theorem Routine.Unplaced.lowering : LoweringInvariant Routine.Unplaced :=
  have values : ValueInvariant Routine.Unplaced :=
    { create := fun hr _ => { hr with }
      setMetadata := fun hr _ => { hr with }
      setInstruction := fun hr _ => { hr with }
      useAt := fun hr _ => { hr with }
      join := fun hr _ => { hr with } }
  { values with
    push := fun _ _ _ hr => { hr with }
    array := fun _ => .seq (.modifyGet fun _ hr => { hr with }) fun _ =>
      values.append_preserves fun _ _ hr => { hr with }
    context := fun _ _ _ _ _ hr => { hr with } }

theorem Routine.unplaced_of_start {tree : Tree} {symbols : SymbolTable} {function : FunctionId}
    {config : Config} (h : start tree symbols function config = .ok r) : r.Unplaced := by
  simp only [start, Arena.bind_eq_ok, Arena.pure_eq_ok] at h
  obtain ⟨symbol, -, rfl⟩ := h
  exact ⟨rfl, rfl, rfl⟩

namespace Routine.Led

theorem ruled (hr : r.Led) (h : r.Unplaced) : r.Ruled r.values where
  edges := .refl r.values
  handles v c hc := ⟨fun w hw => ((hr.handles v c hc).inner w hw).2, fun q hq =>
    ((hr.handles v c hc).register q hq).elim⟩
  registers := by
    rw [h.registers]
    exact .empty r.target.wellFormed_registerFile fun _ => RegisterFile.owner?_ofShape
  snapshots := by simp [h.snapshots]
  entries := by simp [h.entries]

/-- **Leaders are in charge wherever the build of a function comes.** -/
theorem ruled_awaits (hr : r.Led) (h : r.Unplaced) (h₁ : r.Awaits p r₁) :
    r₁.Ruled r.values ∧ r₁.position = p := by
  obtain ⟨r₀, h₀, rfl⟩ := h₁
  have hplacing := ruled_placing r.values
  have hstart : Routine.Ruled r.values { r with built := true } := { hr.ruled h with }
  have hfits : ∀ x ∈ r.instructions.toList.zipIdx.take p, x.1.Fits r.values.Leads := by
    intro x hx
    have hmem := List.fst_mem_of_mem_zipIdx (List.mem_of_mem_take hx)
    exact (hr.instructions x.1 (Array.mem_toList_iff.mp hmem)).mono fun _ => And.right
  obtain ⟨hruled, -⟩ := (Ensures.forM fun x hx => hplacing.buildAt_preserves (hfits x hx))
    _ _ _ hstart h₀
  exact ⟨hplacing.congr hruled rfl rfl rfl rfl rfl, rfl⟩

/-- **Wherever the build comes to an instruction, a call can be prepared there.** -/
theorem evacuable (hr : r.Led) (h : r.Unplaced) (h₁ : r.Awaits p r₁)
    (h₂ : Takes releaseExpired r₁ () r') : r'.Evacuable ∧ r'.position = p := by
  obtain ⟨hruled₁, hposition⟩ := hr.ruled_awaits h h₁
  obtain ⟨hruled, -⟩ := (ruled_placing r.values).releaseExpired_preserves _ _ _ hruled₁ h₂
  obtain ⟨-, hsame, hlives⟩ := releaseExpired_leaves hruled₁.registers.wellFormed h₂
  obtain ⟨R, hsystems⟩ := hr.systems
  have hsystems := hsystems.congr hruled.edges
  have hwell := hruled.registers.wellFormed
  have hoccupant {q : Register} {v : ValueId} (hq : r'.registers.InRange q)
      (hv : r'.registers.owner? q = some v) : (q, v) ∈ r'.registers.occupants :=
    (RegisterFile.mem_occupants hwell).mpr ⟨hq, hv⟩
  have hleads {q : Register} {v : ValueId} (hv : r'.Endangered q v) : r'.values.Leads v :=
    hruled.edges.leads.mpr (hruled.registers.of_mem_occupants (hoccupant hv.inRange hv.owner))
  refine ⟨⟨⟨⟨hwell, fun q v hq hv => ?_, fun v w hw => ?_⟩, hruled.registers.shape⟩,
    fun q v hv => ?_, fun q v x w hv hw hreceived => ?_⟩, hsame.trans hposition⟩
  · obtain ⟨c, hc, -⟩ := (hlives q v (hoccupant hq hv)).2
    exact Arena.cell?_lt hc
  · have hwv := hsystems.neighbours_symm (Arena.receivers_subset _ v hw)
    exact Arena.lt_size_of_mem_neighbours hwv
  · exact (hlives q v (hoccupant hv.inRange hv.owner)).2
  · have hvw := Arena.receivers_subset _ v hreceived
    exact absurd hvw (hsystems.leads_apart (hleads hv) (hleads hw))

end Routine.Led

/-- The part of the build up to an instruction, with the release of registers ahead of it. -/
def Generating.buildUntil (p : Nat) : Generating Unit := do
  let r ← get
  set { r with built := true }
  (r.instructions.toList.zipIdx.take p).forM fun (i, position) => buildAt position i
  modify fun r => { r with position := p }
  releaseExpired

theorem Routine.exists_awaits_of_buildUntil (h : Takes (buildUntil p) r u r') :
    ∃ r₁, r.Awaits p r₁ ∧ Takes releaseExpired r₁ () r' := by
  obtain ⟨s, s', hget, h⟩ := takes_bind.mp h
  obtain ⟨hs, hs'⟩ := takes_get.mp hget
  rw [hs, hs'] at h
  obtain ⟨_, r₀, hset, h⟩ := takes_bind.mp h
  obtain rfl : { r with built := true } = r₀ := by cases hset; rfl
  obtain ⟨_, r₂, hbefore, h⟩ := takes_bind.mp h
  obtain ⟨_, r₃, hposition, hrelease⟩ := takes_bind.mp h
  obtain rfl := takes_modify.mp hposition
  exact ⟨_, ⟨r₂, hbefore, rfl⟩, hrelease⟩

namespace Lowered

theorem led (w : Lowered) : w.routine.Led :=
  lowerFunction_led w.lowers (Routine.led_of_start w.started)

theorem unplaced (w : Lowered) : w.routine.Unplaced :=
  (Routine.Unplaced.lowering.lowerFunction_preserves _ _ _ (Routine.unplaced_of_start w.started)
    w.lowers).1

/-- **Evacuation saves every value that outlives a call.** Wherever the build of a function comes to
an evacuation, it succeeds, whatever machine runs its operations: no register that the call may
overwrite holds a value that is needed behind the call; each value that did is in a home of its own
that was free; and no other register or slot is overwritten. -/
theorem evacuation_saves (w : Lowered) (x : ValueId) (h₁ : w.routine.Awaits p r₁)
    (h₂ : Takes releaseExpired r₁ () r) :
    r.position = p ∧ ∃ r' ops, buildInstruction p x .evacuate r = .ok () r' ∧
      r'.operations = r.operations ++ ops ∧
      ∀ m s, ∃ t, m.execute ops s = some t ∧ Worked m r s r' t ∧ Evacuated r r' s t := by
  obtain ⟨hr, hposition⟩ := w.led.evacuable w.unplaced h₁ h₂
  exact ⟨hposition, buildEvacuate_works hr⟩

end Lowered

open Surface in
/-- An integer and a decimal are needed by the second of two calls. -/
def keeping : ProgramForm where
  globals := []
  types := []
  functions := [
    { name := "keep", key := "keep", inside? := none
      parameters := [⟨"p", some "i64"⟩, ⟨"q", some "decimal"⟩], returnType? := none
      body? := some [.call "ask" [], .call "tell" [.reference "p", .reference "q"]] },
    { name := "ask", key := "ask", inside? := none
      parameters := [], returnType? := none, body? := none },
    { name := "tell", key := "tell", inside? := none
      parameters := [⟨"p", some "i64"⟩, ⟨"q", some "decimal"⟩], returnType? := none
      body? := none }]

/-- Ahead of the first call a register that calls preserve is free for the integer, and none for the
decimal. -/
def keepingMoves : List Operation :=
  [⟨.move, [.register (.general 3), .register (.general 7)]⟩,
    ⟨.move, [.memory (.displaced (.slot (.temporary 0)) 0), .register (.media 0)]⟩]

theorem keeping_moves : ((keeping.lowering? ⟨.x64, false, false⟩).any fun (_, w) =>
    w.kinds[1]? == some .evacuate &&
      match buildUntil 1 w with
      | .error .. => false
      | .ok () r => r.operations.isEmpty &&
        match buildEvacuate r with
        | .error .. => false
        | .ok () r' => r'.operations == keepingMoves) = true := by
  decide +kernel

/-- So after these two operations both values are safe. -/
theorem evacuation_saves_keeping : ∃ (w : Lowered) (r₁ r r' : Routine),
    w.routine.kinds[1]? = some .evacuate ∧ w.routine.Awaits 1 r₁ ∧
      Takes releaseExpired r₁ () r ∧ buildEvacuate r = .ok () r' ∧
      ∀ m s, ∃ t, m.execute keepingMoves s = some t ∧ Worked m r s r' t ∧
        Evacuated r r' s t := by
  obtain ⟨⟨s, r₀⟩, hlow, hr⟩ := (Option.any_eq_true _ _).mp keeping_moves
  obtain ⟨w, -, rfl⟩ := Surface.ProgramForm.exists_lowered hlow
  rw [Bool.and_eq_true, beq_iff_eq] at hr
  obtain ⟨hkind, hr⟩ := hr
  split at hr
  next => cases hr
  next r hcomes =>
    obtain ⟨r₁, h₁, h₂⟩ := Routine.exists_awaits_of_buildUntil hcomes
    obtain ⟨-, r', ops, hbuild, hops, hworks⟩ := w.evacuation_saves 0 h₁ h₂
    have hbuild : buildEvacuate r = .ok () r' := hbuild
    rw [hbuild, Bool.and_eq_true, List.isEmpty_iff, beq_iff_eq, hops] at hr
    obtain ⟨hnone, hops⟩ := hr
    rw [hnone, List.nil_append] at hops
    exact ⟨w, r₁, r, r', hkind, h₁, h₂, hbuild, hops ▸ hworks⟩

end Codegen
