import Codegen.Proofs.Lifetime.Covered
import Codegen.Proofs.Lowering.Parts
import Codegen.Proofs.Selection.Placing
import Codegen.Proofs.Value.Handles

/-!
# Only leaders are named

The result of a store or a read joins the system of an older value, and nothing names it any more:
variables, addresses and later instructions go on with the older one. So each system has a leader,
its oldest value, and the lowering of a function names leaders only. Two values that are named
never belong to the same system. So no change of one of them reaches the other: a leader keeps its
place, and the variables that it stands for.

* `Arena.Leads`: **a value that is older than the rest of its system**;
* `Systems.leads_apart`: two leaders have no edge between them;
* `Arena.Keeps`: a value that keeps its place and its variables;
* `Routine.Led`: **a routine that names leaders only**;
* `Onward`: such a routine in which no leader is lost;
* `append_onward`, `prepared_onward`, `bracketed_onward`, ...: the steps and the constructs;
* `lowerFunction_led`: **the lowering of a function names leaders only**.
-/

namespace Codegen

variable {a b : Arena} {v w c p : ValueId}

/-! ## Leaders -/

/-- **A value that is older than the rest of its system.** -/
def Arena.Leads (a : Arena) (v : ValueId) : Prop := ∀ w ∈ a.neighbours v, v < w

/-- A value of the arena that leads. -/
def Arena.Leader (a : Arena) (v : ValueId) : Prop := v < a.size ∧ a.Leads v

namespace Arena

variable {R : ValueId → ValueId → Prop} {mode : JoinMode}

theorem SameEdges.leads (h : a.SameEdges b) : b.Leads v ↔ a.Leads v := by
  rw [Leads, Leads, h.neighbours]

theorem SameEdges.leader (h : a.SameEdges b) (hv : a.Leader v) : b.Leader v :=
  ⟨Nat.lt_of_lt_of_le hv.1 h.size, h.leads.mpr hv.2⟩

theorem leads_of_alone (h : a.neighbours v = []) : a.Leads v := by
  intro w hw
  rw [h] at hw
  cases hw

theorem Systems.neighbours_symm (h : a.Systems R) (hw : w ∈ a.neighbours v) :
    v ∈ a.neighbours w := by
  obtain ⟨hne, hvw⟩ := h.mem_neighbours.mp hw
  exact h.mem_neighbours.mpr ⟨hne.symm, h.equivalence.symm hvw⟩

/-- **Two leaders have no edge between them.** -/
theorem Systems.leads_apart (h : a.Systems R) (hv : a.Leads v) (hw : a.Leads w) :
    w ∉ a.neighbours v := fun hm =>
  Nat.lt_asymm (hv w hm) (hw v (h.neighbours_symm hm))

theorem Systems.leads_join (h : a.Systems R) (hc : a.neighbours c = [])
    (hb : a.join c p mode = .ok b) (hlt : v < c) (hv : a.Leads v) : b.Leads v := by
  obtain ⟨a₁, h₁, hs⟩ := join_edges hb
  intro w hw
  rw [hs.neighbours, connectAll_neighbours h₁, h.system_eq c, hc] at hw
  rcases hw with hw | ⟨-, ⟨hvc, -⟩ | ⟨hwc, -⟩⟩
  · exact hv w hw
  · exact absurd (List.mem_singleton.mp hvc) (Nat.ne_of_lt hlt)
  · rw [List.mem_singleton.mp hwc]
    exact hlt

theorem alone_create (a : Arena) (h : Handle) (f : Format) :
    (a.create h f).2.neighbours a.size = [] := by
  rw [(create_sameEdges a h f).neighbours, List.eq_nil_iff_forall_not_mem]
  exact fun w hw => Nat.lt_irrefl _ (lt_size_of_mem_neighbours hw)

/-! ## What leaders keep -/

/-- The variables that a value stands for. -/
def varsAt (a : Arena) (v : ValueId) : List VariableId :=
  ((a.cell? v).map (·.metadata.vars)).getD []

/-- **A value keeps its place, and the variables that it stands for.** -/
structure Keeps (a b : Arena) (v : ValueId) : Prop where
  handle : b.handleAt v = a.handleAt v
  vars : a.varsAt v ⊆ b.varsAt v

theorem Keeps.refl (a : Arena) (v : ValueId) : a.Keeps a v := ⟨rfl, fun _ h => h⟩

theorem Keeps.trans {a₁ : Arena} (h : a.Keeps b v) (h' : b.Keeps a₁ v) : a.Keeps a₁ v :=
  ⟨h'.handle.trans h.handle, fun _ hx => h'.vars (h.vars hx)⟩

/-- What a cell says of its value beside its lifetime and its edges. -/
def content? (a : Arena) (v : ValueId) : Option (Handle × Metadata) :=
  (a.cell? v).map fun c => (c.handle, c.metadata)

variable {f : Cell → Cell} {vs : List ValueId}

theorem handleAt_content (a : Arena) (v : ValueId) :
    a.handleAt v = ((a.content? v).map Prod.fst).getD .none := by
  rw [handleAt, content?, Option.map_map]
  rfl

theorem varsAt_content (a : Arena) (v : ValueId) :
    a.varsAt v = ((a.content? v).map (·.2.vars)).getD [] := by
  rw [varsAt, content?, Option.map_map]
  rfl

theorem Keeps.of_content (h : b.content? v = a.content? v) : a.Keeps b v := by
  refine ⟨?_, fun x hx => ?_⟩
  · rw [handleAt_content, handleAt_content, h]
  · rwa [varsAt_content, h, ← varsAt_content]

theorem content?_update (h : a.update w f = .ok b)
    (hf : ∀ c, ((f c).handle, (f c).metadata) = (c.handle, c.metadata)) (v : ValueId) :
    b.content? v = a.content? v := by
  obtain ⟨-, rfl⟩ := update_eq_ok.mp h
  rw [content?, cell?_modify, content?, Option.map_map]
  refine congrArg (Option.map · (a.cell? v)) (funext fun c => ?_)
  rw [Function.comp_apply]
  split
  · exact hf c
  · rfl

theorem updateAll_content (h : a.updateAll vs f = .ok b)
    (hf : ∀ c, ((f c).handle, (f c).metadata) = (c.handle, c.metadata)) (v : ValueId) :
    b.content? v = a.content? v :=
  foldlM_keeps (fun b => b.content? v = a.content? v)
    (fun _ _ _ _ hb hc => (content?_update hc hf v).trans hb) rfl h

theorem content?_useAt {p : Int} (h : a.useAt w p = .ok b) : ∀ v, b.content? v = a.content? v :=
  useAll_keeps (P := fun b => ∀ v, b.content? v = a.content? v)
    (fun _ _ _ _ hb hc v => (content?_update hc (fun _ => rfl) v).trans (hb v)) (fun _ => rfl) h

theorem content?_connectAll {ws : List ValueId} {send receive : Bool}
    (h : a.connectAll vs ws send receive = .ok b) : ∀ v, b.content? v = a.content? v := by
  rw [connectAll_eq] at h
  refine foldlM_keeps (fun b => ∀ v, b.content? v = a.content? v) ?_ (fun _ => rfl) h
  intro b c l _ hb hc v
  rw [connect_eq] at hc
  rw [content?_update hc (fun _ => rfl), hb]

theorem content?_create (h : Handle) (k : Format) (hv : v < a.size) :
    (a.create h k).2.content? v = a.content? v := by
  have hcell : (a.create h k).2.cell? v = a.cell? v := by
    simp only [cell?, Arena.create]
    exact Array.getElem?_push_lt hv |>.trans (Array.getElem?_eq_getElem hv).symm
  rw [content?, hcell, content?]

theorem Systems.content?_updateAll (h : a.Systems R) (hw : w < a.size)
    (hb : a.updateAll (a.audience w false) f = .ok b) (v : ValueId) :
    b.content? v = (a.cell? v).map fun c =>
      if v ∈ a.audience w false then ((f c).handle, (f c).metadata)
      else (c.handle, c.metadata) := by
  obtain ⟨b', hb', hcells⟩ := h.exists_updateAll hw false f
  obtain rfl : b' = b := Except.ok.inj (hb'.symm.trans hb)
  rw [content?, hcells, Option.map_map]
  refine congrArg (Option.map · (a.cell? v)) (funext fun c => ?_)
  rw [Function.comp_apply]
  split <;> rfl

/-- A change of one leader does not travel to another one. -/
theorem Systems.notMem_audience (h : a.Systems R) (hv : a.Leads v) (hw : a.Leads w) (hne : v ≠ w) :
    v ∉ a.audience w false := by
  rw [audience, if_neg Bool.false_ne_true, List.mem_cons, not_or]
  exact ⟨hne, fun hm => h.leads_apart hw hv (receivers_subset a w hm)⟩

theorem Systems.keeps_of_ne (h : a.Systems R) (hw : w < a.size)
    (hb : a.updateAll (a.audience w false) f = .ok b) (hm : v ∉ a.audience w false) :
    a.Keeps b v := by
  refine .of_content ?_
  rw [h.content?_updateAll hw hb, content?]
  simp only [hm, if_false]

/-- A leader that is said to stand for more variables goes on to stand for the others, and so do
the other leaders. -/
theorem Systems.setMetadata_keeps (h : a.Systems R) {c : Cell} (hc : a.cell? w = some c)
    (hw : a.Leads w) {m : Metadata} (hm : c.metadata.vars ⊆ m.vars)
    (hb : a.setMetadata w m false = .ok b) (hv : a.Leads v) : a.Keeps b v := by
  by_cases hne : v = w
  · subst hne
    have hcontent : b.content? v = some (c.handle, m) := by
      rw [h.content?_updateAll (cell?_lt hc) hb, hc]
      simp [audience]
    have hbefore : a.content? v = some (c.handle, c.metadata) := by rw [content?, hc]; rfl
    refine ⟨?_, ?_⟩
    · rw [handleAt_content, handleAt_content, hcontent, hbefore]
      rfl
    · rw [varsAt_content, varsAt_content, hcontent, hbefore]
      exact hm
  · exact h.keeps_of_ne (cell?_lt hc) hb (h.notMem_audience hv hw hne)

/-- **What joins the system of a leader changes no leader.** -/
theorem Systems.join_keeps (h : a.Systems R) (hc : a.neighbours c = [])
    (hb : a.join c p mode = .ok b) (hv : a.Leads v) (hvc : v < c) (hp : a.Leads p)
    (hpc : p < c) : a.Keeps b v := by
  obtain ⟨a', h', hs⟩ := join_edges hb
  have hleads {w : ValueId} (hw : a.Leads w) (hwc : w < c) : a'.Leads w :=
    hs.leads.mp (h.leads_join hc hb hwc hw)
  have hjoin := hb
  simp only [Arena.join, bind_eq_ok, cell_eq_ok] at hjoin
  obtain ⟨-, -, -, -, a₁, h₁, c₁, hc₁, a₂, h₂, a₃, h₃, c₂, -, h₄⟩ := hjoin
  obtain rfl : a' = a₁ := Except.ok.inj (h'.symm.trans h₁)
  have hR := h.connectAll h₁
  have hs₂ : a'.SameEdges a₂ := updateAll_sameEdges h₂ fun _ => rfl
  have e₁ : a.Keeps a' v := .of_content (content?_connectAll h₁ v)
  -- the leader of the system gets the place that it has
  have hcontent₂ : a₂.content? p = some (c₁.handle, c₁.metadata) := by
    rw [hR.content?_updateAll (cell?_lt hc₁) h₂, hc₁]
    simp [audience]
  have e₂ : a'.Keeps a₂ v := by
    by_cases hne : v = p
    · subst hne
      refine .of_content (hcontent₂.trans ?_)
      rw [content?, hc₁]
      rfl
    · exact hR.keeps_of_ne (cell?_lt hc₁) h₂
        (hR.notMem_audience (hleads hv hvc) (hleads hp hpc) hne)
  obtain ⟨c₃, hc₃, hcell⟩ := Option.map_eq_some_iff.mp hcontent₂
  have e₃ : a₂.Keeps a₃ v := by
    refine (hR.congr hs₂).setMetadata_keeps hc₃ (hs₂.leads.mpr (hleads hp hpc)) ?_ h₃
      (hs₂.leads.mpr (hleads hv hvc))
    have hmetadata : c₃.metadata = c₁.metadata := (Prod.ext_iff.mp hcell).2
    exact hmetadata ▸ fun _ hx => hx
  have e₄ : a₃.Keeps b v := .of_content (updateAll_content h₄ (fun _ => rfl) v)
  exact ((e₁.trans e₂).trans e₃).trans e₄

end Arena

theorem Handle.Fits.mono {P Q : ValueId → Prop} {R : Register → Prop} {h : Handle}
    (hh : h.Fits P R) (hPQ : ∀ v, P v → Q v) : h.Fits Q R :=
  ⟨fun v hv => hPQ v (hh.inner v hv), hh.register⟩

theorem Instruction.Fits.mono {P Q : ValueId → Prop} {i : Instruction} (hi : i.Fits P)
    (hPQ : ∀ v, P v → Q v) : i.Fits Q :=
  ⟨fun q hq => hPQ _ (hi.parameters q hq), fun h => hPQ _ (hi.result h)⟩

/-! ## The invariant -/

/-- A place without a register that refers to values of a kind. -/
abbrev Handle.Refers (P : ValueId → Prop) (h : Handle) : Prop := h.Fits P fun _ => False

/-- **A routine that names leaders only.** -/
structure Routine.Led (r : Routine) : Prop where
  isSet : r.values.IsSet
  systems : ∃ R, r.values.Systems R
  handles : r.values.AllHandles (Handle.Refers r.values.Leader)
  instructions : ∀ i ∈ r.instructions, i.Fits r.values.Leader
  bindings : ∀ b ∈ r.bindings, r.values.Leader b.2
  /-- A bound value stands for its variable. -/
  held : ∀ b ∈ r.bindings, b.1 ∈ r.values.varsAt b.2
  loops : ∀ l ∈ r.loops, ∀ b ∈ l.2.actives, r.values.Leader b.2

/-- **A routine that names leaders only**, among them all those of an earlier arena, which have kept
their places and variables. -/
structure Onward (a : Arena) (r : Routine) : Prop where
  led : r.Led
  leader : ∀ v, a.Leader v → r.values.Leader v
  keeps : ∀ v, a.Leader v → a.Keeps r.values v

theorem Onward.trans {r r' : Routine} (h : Onward a r) (h' : Onward r.values r') : Onward a r' :=
  ⟨h'.led, fun v hv => h'.leader v (h.leader v hv), fun v hv =>
    (h.keeps v hv).trans (h'.keeps v (h.leader v hv))⟩

/-- Bindings of an earlier routine. -/
theorem Onward.held {r r' : Routine} (h : Onward r.values r') (hr : r.Led) :
    ∀ b ∈ r.bindings, b.1 ∈ r'.values.varsAt b.2 := fun b hb =>
  (h.keeps b.2 (hr.bindings b hb)).vars (hr.held b hb)

namespace Routine.Led

variable {r : Routine} {values : Arena} {bindings : List Binding}

theorem onward (hr : r.Led) : Onward r.values r := ⟨hr, fun _ => id, fun v _ => .refl _ v⟩

theorem context (hr : r.Led) (tree : Tree) (regions : List Region) (labels identities : Nat) :
    { r with tree, regions, labels, identities }.Led :=
  ⟨hr.isSet, hr.systems, hr.handles, hr.instructions, hr.bindings, hr.held, hr.loops⟩

theorem rebind (hr : r.Led) (hb : ∀ b ∈ bindings, r.values.Leader b.2)
    (hv : ∀ b ∈ bindings, b.1 ∈ r.values.varsAt b.2) : { r with bindings }.Led :=
  ⟨hr.isSet, hr.systems, hr.handles, hr.instructions, hb, hv, hr.loops⟩

theorem push (hr : r.Led) {i : Instruction} (hi : i.Fits r.values.Leader) :
    { r with instructions := r.instructions.push i }.Led where
  isSet := hr.isSet
  systems := hr.systems
  handles := hr.handles
  instructions j hj := by
    rcases Array.mem_push.mp hj with hj | rfl
    · exact hr.instructions j hj
    · exact hi
  bindings := hr.bindings
  held := hr.held
  loops := hr.loops

theorem revalued (hr : r.Led) (hs : values.IsSet) (hR : ∃ R, values.Systems R)
    (hh : values.AllHandles (Handle.Refers r.values.Leader))
    (hl : ∀ v, r.values.Leader v → values.Leader v)
    (hk : ∀ v, r.values.Leader v → r.values.Keeps values v) :
    Onward r.values { r with values } where
  led := by
    refine ⟨hs, hR, fun v c hc => (hh v c hc).mono hl, fun i hi => ?_, fun b hb => ?_,
      fun b hb => ?_, fun l hm b hb => ?_⟩
    · exact (hr.instructions i hi).mono hl
    · exact hl _ (hr.bindings b hb)
    · exact (hk _ (hr.bindings b hb)).vars (hr.held b hb)
    · exact hl _ (hr.loops l hm b hb)
  leader := hl
  keeps := hk

theorem marked (hr : r.Led) (h : r.values.Marked values)
    (hh : values.AllHandles (Handle.Refers r.values.Leader))
    (hk : ∀ v, r.values.Leader v → r.values.Keeps values v) :
    Onward r.values { r with values } :=
  hr.revalued h.grows.isSet (hr.systems.imp fun _ hR => hR.congr h.edges) hh
    (fun _ hv => h.edges.leader hv) hk

end Routine.Led

namespace Generating

variable {r r' r₁ : Routine} {u : Unit} {x y z : ValueId} {n : NodeId} {f : Format}
variable {var : VariableId} {k : InstructionKind} {h : Handle} {i : Nat}
variable {actives bindings : List Binding} {lower : Lowering}

/-! ## Values -/

theorem create_onward (h' : Takes (create h f) r x r') (hr : r.Led)
    (hh : h.Refers r.values.Leader) : Onward r.values r' ∧ r'.values.Leader x := by
  obtain ⟨rfl, rfl⟩ := takes_create.mp h'
  obtain ⟨hg, hn⟩ := Arena.create_grows hr.isSet h f
  have hedges := Arena.create_sameEdges r.values h f
  refine ⟨hr.revalued hg.isSet (hr.systems.imp fun _ hR => hR.congr hedges)
    (hr.handles.create hh) (fun _ hv => hedges.leader hv)
    fun _ hv => .of_content (Arena.content?_create h f hv.1), ?_, ?_⟩
  · exact hn ▸ Nat.lt_succ_self _
  · exact Arena.leads_of_alone (Arena.alone_create r.values h f)

theorem constant_refers {P : ValueId → Prop} (m : Number) : (Handle.constant m).Refers P :=
  ⟨by simp [Handle.inner], by simp⟩

/-- The place that the result of an instruction has from the start is computed from the parameters
of the instruction. -/
theorem initialHandle_refers {P : ValueId → Prop} (hk : ∀ q ∈ k.parameters, P q.value) :
    k.initialHandle.Refers P where
  inner v hv := by
    obtain ⟨q, hq, rfl⟩ := k.inner_initialHandle hv
    exact hk q hq
  register q hq := by cases k <;> cases hq

/-- A value stands for the variable that is bound to it. -/
theorem bind_held {R : ValueId → ValueId → Prop} (hR : a.Systems R) {c : Cell}
    (hc : a.cell? x = some c)
    (hb : a.setMetadata x { c.metadata with
      vars := if c.metadata.vars.contains var then c.metadata.vars
        else c.metadata.vars ++ [var] } false = .ok b) : var ∈ b.varsAt x := by
  rw [Arena.varsAt_content, hR.content?_updateAll (Arena.cell?_lt hc) hb, hc]
  simp only [Arena.audience, Bool.false_eq_true, if_false, List.mem_cons, true_or, if_true,
    Option.map_some, Option.getD_some]
  split
  · rwa [← List.contains_iff_mem]
  · simp

theorem bind_onward (h : Takes (bind var x) r u r') (hr : r.Led) (hx : r.values.Leader x) :
    Onward r.values r' := by
  simp only [bind, attach, takes_bind, takes_cellOf, takes_modify] at h
  obtain ⟨_, r₁, ⟨c, _, ⟨hc, rfl⟩, h⟩, rfl⟩ := h
  obtain ⟨values, hv, rfl⟩ := takes_changeValues.mp h
  obtain ⟨R, hR⟩ := hr.systems
  have hvars : c.metadata.vars ⊆
      if c.metadata.vars.contains var then c.metadata.vars else c.metadata.vars ++ [var] := by
    split
    · exact fun _ h => h
    · exact List.subset_append_left _ _
  have h₁ := hr.marked (Arena.setMetadata_marked hr.isSet hv) (hr.handles.setMetadata hv)
    fun v hv' => hR.setMetadata_keeps hc hx.2 hvars hv hv'.2
  refine ⟨h₁.led.rebind (fun b hb => ?_) fun b hb => ?_, h₁.leader, h₁.keeps⟩
  · rcases mem_put hb with rfl | hb
    · exact h₁.leader _ hx
    · exact h₁.led.bindings b hb
  · rcases mem_put hb with rfl | hb
    · exact bind_held hR hc hv
    · exact h₁.led.held b hb

theorem bindToSlot_onward (h : Takes (bindToSlot var) r x r') (hr : r.Led) :
    Onward r.values r' ∧ r'.values.Leader x := by
  obtain ⟨r₁, f, h₁, h₂⟩ := takes_bindToSlot h
  have hslot : (Handle.variableSlot var).Refers r.values.Leader := ⟨by simp [Handle.inner], by simp⟩
  obtain ⟨o₁, hx⟩ := create_onward h₁ hr hslot
  have o₂ := bind_onward h₂ o₁.led hx
  exact ⟨o₁.trans o₂, o₂.leader _ hx⟩

theorem leader_of_lookup (hr : r.Led) (hx : r.bindings.lookup var = some x) :
    r.values.Leader x := by
  obtain ⟨before, after, h, -⟩ := List.lookup_eq_some_iff.mp hx
  exact hr.bindings (var, x) (by simp [h])

theorem valueOf_onward (h : Takes (valueOf var) r x r') (hr : r.Led) :
    Onward r.values r' ∧ r'.values.Leader x := by
  rcases valueOf_cases h with ⟨hx, rfl⟩ | h
  · exact ⟨hr.onward, leader_of_lookup hr hx⟩
  · exact bindToSlot_onward h hr

/-! ## Instructions -/

/-- Marks on the values: which instruction makes one, and where they are needed. -/
def MarksOnly (r r' : Routine) : Prop :=
  ∃ values, r' = { r with values } ∧ (∀ v, values.content? v = r.values.content? v) ∧
    (r.values.IsSet → r.values.Marked values ∧
      ∀ P, r.values.AllHandles P → values.AllHandles P)

theorem MarksOnly.trans {r'' : Routine} (h : MarksOnly r r') (h' : MarksOnly r' r'') :
    MarksOnly r r'' := by
  obtain ⟨values, rfl, hc, h⟩ := h
  obtain ⟨values', rfl, hc', h'⟩ := h'
  refine ⟨values', rfl, fun v => (hc' v).trans (hc v), fun hs => ?_⟩
  obtain ⟨m, hh⟩ := h hs
  obtain ⟨m', hh'⟩ := h' m.grows.isSet
  exact ⟨m.trans m', fun P hP => hh' P (hh P hP)⟩

theorem useAt_marks {q : Nat} (h : Takes (useAt x q) r u r') : MarksOnly r r' := by
  obtain ⟨values, hv, rfl⟩ := takes_changeValues.mp h
  exact ⟨values, rfl, Arena.content?_useAt hv, fun hs =>
    ⟨Arena.useAll_marked hs (Int.natCast_nonneg _) hv, fun P hP => hP.useAt hv⟩⟩

theorem useAll_marks {ps : List Parameter} {q : Nat}
    (h : Takes (ps.forM fun p => useAt p.value q) r u r') : MarksOnly r r' :=
  takes_forM (fun _ s => MarksOnly r s) h
    ⟨r.values, rfl, fun _ => rfl, fun hs => ⟨.refl hs, fun _ => id⟩⟩
    fun _ _ _ _ _ _ h hI => hI.trans (useAt_marks h)

/-- The result of a store or a read joins the system of a parameter, and then another value leads
it. The result of any other instruction stands alone. -/
theorem joinResult_onward (h : Takes (joinResult x k) r u r') (hr : r.Led)
    (hx : r.values.neighbours x = []) (hold : ∀ v, a.Leader v → v < x ∧ r.values.Leader v)
    (hk : ∀ q ∈ k.parameters, a.Leader q.value)
    (hlt : x < r.values.size) (hh : r.values.AllHandles (Handle.Refers a.Leader)) :
    ∃ values, r' = { r with values } ∧ values.IsSet ∧ (∃ R, values.Systems R) ∧
      values.AllHandles (Handle.Refers a.Leader) ∧
      (∀ v, a.Leader v → values.Leader v ∧ r.values.Keeps values v) ∧
      (k.isEcho = false → values.Leader x) := by
  obtain ⟨R, hR⟩ := hr.systems
  have joined {y : ValueId} {mode : JoinMode} {values : Arena} (hy : a.Leader y)
      (hv : r.values.join x y mode = .ok values) : values.IsSet ∧ (∃ R, values.Systems R) ∧
        values.AllHandles (Handle.Refers a.Leader) ∧
        ∀ v, a.Leader v → values.Leader v ∧ r.values.Keeps values v := by
    obtain ⟨hg, hn⟩ := Arena.join_grows hr.isSet hv
    obtain ⟨hyx, -, hyleads⟩ := hold y hy
    refine ⟨hg.isSet, ⟨_, hR.join hv⟩, hh.join hv, fun v hv' => ?_⟩
    obtain ⟨hvx, hsize, hleads⟩ := hold v hv'
    exact ⟨⟨hn ▸ hsize, hR.leads_join hx hv hvx hleads⟩,
      hR.join_keeps hx hv hleads hvx hyleads hyx⟩
  unfold joinResult at h
  split at h
  · obtain ⟨values, hv, rfl⟩ := takes_changeValues.mp h
    obtain ⟨h₁, h₂, h₃, h₄⟩ := joined (hk _ List.mem_cons_self) hv
    exact ⟨values, rfl, h₁, h₂, h₃, h₄, fun h => nomatch h⟩
  · obtain ⟨values, hv, rfl⟩ := takes_changeValues.mp h
    obtain ⟨h₁, h₂, h₃, h₄⟩ := joined (hk _ List.mem_cons_self) hv
    exact ⟨values, rfl, h₁, h₂, h₃, h₄, fun h => nomatch h⟩
  · obtain ⟨-, rfl⟩ := takes_pure.mp h
    exact ⟨r.values, rfl, hr.isSet, hr.systems, hh, fun v hv => ⟨(hold v hv).2, .refl _ v⟩,
      fun _ => ⟨hlt, Arena.leads_of_alone hx⟩⟩

/-- **An instruction over leaders is appended**: its result leads as well, unless it is an echo. -/
theorem append_onward (h : Takes (append k f) r x r') (hr : r.Led)
    (hk : ∀ q ∈ k.parameters, r.values.Leader q.value) :
    Onward r.values r' ∧ (k.isEcho = false → r'.values.Leader x) := by
  obtain ⟨s, s', hget, h⟩ := takes_bind.mp h
  obtain ⟨hs, hs'⟩ := takes_get.mp hget
  rw [hs, hs'] at h
  simp only [takes_bind, takes_create, takes_modify, takes_pure] at h
  obtain ⟨z, _, ⟨rfl, rfl⟩, _, r₁, h₁, _, r₂, h₂, _, r₃, h₃, _, r₄, h₄, _, r₅, h₅, _, _, rfl, rfl,
    rfl⟩ := h
  have hplace : k.initialHandle.Refers r.values.Leader := initialHandle_refers hk
  obtain ⟨o₀, hz⟩ := create_onward (h := k.initialHandle) (f := f) (takes_create.mpr ⟨rfl, rfl⟩) hr
    hplace
  -- the result stands for no variable yet, so it may be said to stand for any
  obtain ⟨values₁, hv₁, rfl⟩ := takes_changeValues.mp h₁
  obtain ⟨R, hR⟩ := o₀.led.systems
  have hm₁ := Arena.setMetadata_marked o₀.led.isSet hv₁
  have o₁ := o₀.led.marked hm₁ (o₀.led.handles.setMetadata hv₁) fun v hv =>
    hR.setMetadata_keeps (Array.getElem?_push_size ..) hz.2 (List.nil_subset _) hv₁ hv.2
  -- only marks are made until the result joins another value
  have m₂ : MarksOnly { r with values := values₁ } r₂ := by
    obtain ⟨values, hv, rfl⟩ := takes_changeValues.mp h₂
    exact ⟨values, rfl, Arena.content?_update hv fun _ => rfl, fun hs =>
      ⟨Arena.setInstruction_marked hs hv, fun P hP => hP.setInstruction hv⟩⟩
  obtain ⟨values, rfl, hcontent, hm⟩ := m₂.trans ((useAll_marks h₃).trans (useAt_marks h₄))
  obtain ⟨m, hhandles⟩ := hm o₁.led.isSet
  have o₄ := o₀.trans (o₁.trans
    (o₁.led.marked m (hhandles _ o₁.led.handles) fun v _ => .of_content (hcontent v)))
  have halone : values.neighbours r.values.size = [] := by
    rw [m.edges.neighbours, hm₁.edges.neighbours]
    exact Arena.alone_create r.values k.initialHandle f
  have hlt : r.values.size < values.size :=
    (m.edges.leader (hm₁.edges.leader hz)).1
  obtain ⟨values', rfl, hs, hR, hh, hl, hx⟩ := joinResult_onward h₅ o₄.led halone
    (fun v hv => ⟨hv.1, o₄.leader v hv⟩) hk hlt
    (hhandles _ ((hr.handles.create hplace).setMetadata hv₁))
  have o₅ := hr.revalued hs hR hh (fun v hv => (hl v hv).1)
    fun v hv => (o₄.keeps v hv).trans (hl v hv).2
  exact ⟨⟨o₅.led.push ⟨fun q hq => (hl _ (hk q hq)).1, hx⟩, o₅.leader, o₅.keeps⟩, hx⟩

theorem append_plain_onward (h : Takes (append k f) r x r') (hr : r.Led) (hk : k.parameters = []) :
    Onward r.values r' ∧ (k.isEcho = false → r'.values.Leader x) :=
  append_onward h hr (by simp [hk])

theorem marker_onward (h : Takes (appendMarker k) r i r') (hr : r.Led)
    (hk : ∀ q ∈ k.parameters, r.values.Leader q.value) : Onward r.values r' := by
  simp only [appendMarker, takes_bind, takes_get, takes_pure] at h
  obtain ⟨_, _, ⟨rfl, rfl⟩, x, r₁, h, -, rfl⟩ := h
  exact (append_onward h hr hk).1

theorem marker_plain_onward (h : Takes (appendMarker k) r i r') (hr : r.Led)
    (hk : k.parameters = []) : Onward r.values r' :=
  marker_onward h hr (by simp [hk])

theorem label_onward {l : Label} (h : Takes (appendLabel l) r u r') (hr : r.Led) :
    Onward r.values r' := by
  simp only [appendLabel, takes_bind, takes_pure] at h
  obtain ⟨x, r₁, h, -, rfl⟩ := h
  exact (append_plain_onward h hr rfl).1

theorem jump_onward {l : Label} {test : Option JumpTest} (h : Takes (appendJump l test) r u r')
    (hr : r.Led) : Onward r.values r' := by
  simp only [appendJump, takes_bind, takes_pure] at h
  obtain ⟨x, r₁, h, -, rfl⟩ := h
  exact (append_plain_onward h hr rfl).1

/-! ## Around regions -/

/-- The values of bindings lead. -/
abbrev Bound (r : Routine) (bindings : List Binding) : Prop := ∀ b ∈ bindings, r.values.Leader b.2

theorem observed_leads (hb : Bound r bindings) :
    ∀ q ∈ InstructionKind.observedParameters bindings, r.values.Leader q.value := by
  intro q hq
  obtain ⟨b, hb', rfl⟩ := List.mem_map.mp hq
  exact hb b hb'

theorem pairsOf_leads (hr : r.Led) (ha : Bound r actives) :
    ∀ q ∈ InstructionKind.mergeParameters (pairsOf r.bindings actives),
      r.values.Leader q.value := by
  intro q hq
  obtain ⟨pair, hpair, hq⟩ := List.mem_flatMap.mp hq
  obtain ⟨b, hb, rfl⟩ := List.mem_map.mp hpair
  rcases List.mem_pair.mp hq with rfl | rfl
  · exact ha b hb
  · cases hx : r.bindings.lookup b.1 with
    | none => exact ha b hb
    | some x => exact leader_of_lookup hr hx

theorem prepared_onward (h : Prepared actives r r') (hr : r.Led) (ha : Bound r actives) :
    Onward r.values r' := by
  induction h with
  | refl => exact hr.onward
  | cache _ hvars h ih =>
    have hvars := observed_leads fun b hb => leader_of_lookup ih.led (hvars b hb)
    exact ih.trans (append_onward h ih.led hvars).1
  | keep _ hb h ih =>
    refine ih.trans (append_onward h ih.led fun q hq => ?_).1
    rw [List.mem_singleton.mp hq]
    exact ih.leader _ (ha _ hb)
  | copy _ hx h hb ih =>
    obtain ⟨o, hy⟩ := append_onward h ih.led fun q hq => by
      rw [List.mem_singleton.mp hq]
      exact leader_of_lookup ih.led hx
    exact ih.trans (o.trans (bind_onward hb o.led (hy rfl)))
  | fresh _ hc hb hk ih =>
    obtain ⟨o, hx⟩ := create_onward hc ih.led
      ⟨by simp [hk.1], fun q hq => by simp [hq, Handle.register?] at hk⟩
    exact ih.trans (o.trans (bind_onward hb o.led hx))

/-- What happens between brackets names leaders, and so do the brackets. -/
theorem bracketed_onward {step : Routine → Routine → Prop} (h : Bracketed step r r')
    (hr : r.Led) (hstep : ∀ {r r'}, step r r' → r.Led → Onward r.values r') :
    Onward r.values r' := by
  obtain ⟨save, r₁, enter, r₂, r₃, i, r₄, j, hs, he, hm, hx, hj⟩ := h
  have o₁ := marker_plain_onward hs hr rfl
  have b₁ : Bound r₁ r.bindings := fun b hb => o₁.leader _ (hr.bindings b hb)
  have o₂ := o₁.trans (marker_onward he o₁.led (observed_leads b₁))
  have hin := hstep hm (o₂.led.context _ _ _ _)
  have o₃ := o₂.trans hin
  have hout := o₃.led.context r₃.tree r₃.regions.tail r₃.labels r₃.identities
  have b₃ : Bound r₃ r.bindings := fun b hb => o₃.leader _ (hr.bindings b hb)
  have hmerge := marker_onward hx hout (pairsOf_leads o₃.led b₃)
  have o₄ := o₃.trans hmerge
  have hback := o₄.led.rebind (fun b hb => o₄.leader _ (hr.bindings b hb)) (o₄.held hr)
  have hrestore := marker_plain_onward hj hback rfl
  exact o₄.trans hrestore

/-! ## Nodes in order -/

/-- The lowering of any node names leaders only, and its value leads. -/
def Leading (lower : Lowering) : Prop :=
  ∀ {n : NodeId} {r r' : Routine} {x? : Option ValueId}, Takes (lower n) r x? r' → r.Led →
    Onward r.values r' ∧ ∀ x ∈ x?, r'.values.Leader x

section Constructs

variable (hl : Leading lower)
include hl

theorem lowersEach_onward {ns : List NodeId} (h : LowersEach lower ns r r') (hr : r.Led) :
    Onward r.values r' := by
  induction h with
  | nil => exact hr.onward
  | cons h _ ih =>
    obtain ⟨o, -⟩ := hl h hr
    exact o.trans (ih o.led)

theorem lowersAll_onward {ns : List NodeId} {xs : List ValueId} (h : LowersAll lower ns r xs r')
    (hr : r.Led) : Onward r.values r' ∧ ∀ x ∈ xs, r'.values.Leader x := by
  induction h with
  | nil => exact ⟨hr.onward, by simp⟩
  | cons h _ ih =>
    obtain ⟨o, hx⟩ := hl h hr
    obtain ⟨o', hxs⟩ := ih o.led
    exact ⟨o.trans o', List.forall_mem_cons.mpr ⟨o'.leader _ (hx _ rfl), hxs⟩⟩

theorem stated_onward {ns : List NodeId} {x? y? : Option ValueId} (h : Stated lower x? ns r y? r')
    (hr : r.Led) (hx : ∀ x ∈ x?, r.values.Leader x) :
    Onward r.values r' ∧ ∀ y ∈ y?, r'.values.Leader y := by
  induction h with
  | nil => exact ⟨hr.onward, hx⟩
  | skip _ _ ih => exact ih hr hx
  | cons _ h _ ih =>
    obtain ⟨o, hy⟩ := hl h hr
    obtain ⟨o', hz⟩ := ih o.led hy
    exact ⟨o.trans o', hz⟩

/-! ## Expressions -/

omit hl in
theorem combined_onward {o : Operator} (h : Combined o x y r z r') (hr : r.Led)
    (hx : r.values.Leader x) (hy : r.values.Leader y) : Onward r.values r' ∧ r'.values.Leader z := by
  cases h with
  | first hz hr' =>
    subst hz hr'
    exact ⟨hr.onward, hx⟩
  | constant h => exact create_onward h hr (constant_refers _)
  | @instruction k _ hk h =>
    have hparameters : ∀ q ∈ k.parameters, r.values.Leader q.value := by
      intro q hq
      cases isArithmetic_of_arithmetic? hk
      all_goals
        rcases List.mem_pair.mp hq with rfl | rfl
        · exact hx
        · exact hy
    obtain ⟨o, hz⟩ := append_onward h hr hparameters
    exact ⟨o, hz (by cases isArithmetic_of_arithmetic? hk <;> rfl)⟩

omit hl in
theorem operated_onward {o : Operator} (h : Operated o x y r z r') (hr : r.Led)
    (hx : r.values.Leader x) (hy : r.values.Leader y) :
    Onward r.values r' ∧ r'.values.Leader z := by
  rcases h with h | ⟨-, h⟩
  · exact combined_onward h hr hx hy
  · exact combined_onward h hr hy hx

omit hl in
theorem copied_onward (h : Copied x r y r') (hr : r.Led) (hx : r.values.Leader x) :
    Onward r.values r' ∧ r'.values.Leader y := by
  rcases h with ⟨rfl, rfl⟩ | ⟨f, h⟩
  · exact ⟨hr.onward, hx⟩
  · obtain ⟨o, hy⟩ := append_onward h hr fun q hq => by
      rw [List.mem_singleton.mp hq]
      exact hx
    exact ⟨o, hy rfl⟩

theorem lowerArithmetic_onward {o : Operator} (h : Takes (lowerArithmetic lower n o) r z r')
    (hr : r.Led) : Onward r.values r' ∧ r'.values.Leader z := by
  obtain ⟨left, right, x, y, r₁, r₂, -, -, h₁, h₂, h₃⟩ := lowerArithmetic_parts h
  obtain ⟨o₁, hx⟩ := hl h₁ hr
  obtain ⟨o₂, hy⟩ := hl h₂ o₁.led
  obtain ⟨o₃, hz⟩ := operated_onward h₃ o₂.led (o₂.leader x (hx x rfl)) (hy y rfl)
  exact ⟨o₁.trans (o₂.trans o₃), hz⟩

theorem lowerAssignment_onward (h : Takes (lowerAssignment lower n) r z r') (hr : r.Led) :
    Onward r.values r' ∧ r'.values.Leader z := by
  obtain ⟨destination, source, -, -, h⟩ := lowerAssignment_parts h
  rcases h with ⟨v, x, r₁, r₂, -, h₁, h₂, h₃⟩ | ⟨x, r₁, r₂, f, w, -, h₁, h₂, h₃⟩
  · obtain ⟨o₁, hx⟩ := hl h₁ hr
    obtain ⟨o₂, hz⟩ := copied_onward h₂ o₁.led (hx x rfl)
    have o₃ := bind_onward h₃ o₂.led hz
    exact ⟨o₁.trans (o₂.trans o₃), o₃.leader _ hz⟩
  · obtain ⟨o₁, hx⟩ := hl h₁ hr
    obtain ⟨o₂, hz⟩ := hl h₂ o₁.led
    obtain ⟨o₃, -⟩ := append_onward h₃ o₂.led fun q hq => by
      rcases List.mem_pair.mp hq with rfl | rfl
      · exact o₂.leader x (hx x rfl)
      · exact hz z rfl
    exact ⟨o₁.trans (o₂.trans o₃), o₃.leader _ (hz z rfl)⟩

theorem lowerLink_onward (h : Takes (lowerLink lower n) r z r') (hr : r.Led) :
    Onward r.values r' ∧ r'.values.Leader z := by
  obtain ⟨object, name, v, x, r₁, offset, f, -, -, -, -, h₁, h₂⟩ := lowerLink_parts h
  obtain ⟨o₁, hx⟩ := hl h₁ hr
  obtain ⟨o₂, hz⟩ := append_onward h₂ o₁.led fun q hq => by
    rw [List.mem_singleton.mp hq]
    exact hx x rfl
  exact ⟨o₁.trans o₂, hz rfl⟩

theorem lowerOffset_onward (h : Takes (lowerOffset lower n) r z r') (hr : r.Led) :
    Onward r.values r' ∧ r'.values.Leader z := by
  obtain ⟨object, index, x, y, r₁, r₂, f, -, -, h₁, h₂, h₃⟩ := lowerOffset_parts h
  obtain ⟨o₁, hx⟩ := hl h₁ hr
  obtain ⟨o₂, hy⟩ := hl h₂ o₁.led
  obtain ⟨o₃, hz⟩ := append_onward h₃ o₂.led fun q hq => by
    rcases List.mem_pair.mp hq with rfl | rfl
    · exact o₂.leader x (hx x rfl)
    · exact hy y rfl
  exact ⟨o₁.trans (o₂.trans o₃), hz rfl⟩

theorem lowerCall_onward {g : FunctionId} (h : Takes (lowerCall lower n g) r z r') (hr : r.Led) :
    Onward r.values r' ∧ r'.values.Leader z := by
  obtain ⟨xs, r₁, w, r₂, symbol, f, h₁, h₂, -, h₃⟩ := lowerCall_parts h
  obtain ⟨o₁, hxs⟩ := lowersAll_onward hl h₁ hr
  obtain ⟨o₂, -⟩ := append_plain_onward h₂ o₁.led rfl
  obtain ⟨o₃, hz⟩ := append_onward h₃ o₂.led fun q hq => by
    obtain ⟨x, hx, rfl⟩ := List.mem_map.mp hq
    exact o₂.leader x (hxs x hx)
  exact ⟨o₁.trans (o₂.trans o₃), hz rfl⟩

theorem lowerReturn_onward (h : Takes (lowerReturn lower n) r u r') (hr : r.Led) :
    Onward r.values r' := by
  rcases lowerReturn_parts h with ⟨-, w, h⟩ | ⟨child, x, y, r₁, r₂, w, -, h₁, h₂, h₃⟩
  · exact (append_plain_onward h hr rfl).1
  · obtain ⟨o₁, hx⟩ := hl h₁ hr
    obtain ⟨o₂, hy⟩ := copied_onward h₂ o₁.led (hx x rfl)
    refine o₁.trans (o₂.trans (append_onward h₃ o₂.led fun q hq => ?_).1)
    rw [List.mem_singleton.mp hq]
    exact hy

/-! ## Conditions -/

omit hl in
theorem conditioned_onward {success failure : Label} {steps : List Step}
    (h : Conditioned n success failure r steps r') (hr : r.Led) : Onward r.values r' := by
  induction h with
  | logical _ _ _ _ _ _ _ ihl ihr =>
    have o := ihl (hr.context _ _ _ _)
    exact o.trans (ihr o.led)
  | comparison => exact hr.onward
  | nonzero _ _ hz =>
    obtain ⟨format, -, -, rfl⟩ := compareWithZero_parts hz
    exact ⟨hr.context _ _ _ _, fun _ => id, fun v _ => .refl _ v⟩
  | parenthesis _ _ _ ih => exact ih hr

theorem appendComparison_onward {left right : NodeId}
    (h : Takes (appendComparison lower left right) r u r') (hr : r.Led) :
    Onward r.values r' := by
  refine bracketed_onward (appendComparison_bracketed h) hr fun {r r'} h hr => ?_
  obtain ⟨x, r₁, y, r₂, w, hx, hy, hw⟩ := h
  obtain ⟨o₁, hx⟩ := hl hx hr
  obtain ⟨o₂, hy⟩ := hl hy o₁.led
  refine o₁.trans (o₂.trans (append_onward hw o₂.led fun q hq => ?_).1)
  rcases List.mem_pair.mp hq with rfl | rfl
  · exact o₂.leader x (hx x rfl)
  · exact hy y rfl

theorem appendStep_onward {s : Step} (h : Takes (appendStep lower s) r u r') (hr : r.Led) :
    Onward r.values r' := by
  cases s with
  | compare left right => exact appendComparison_onward hl h hr
  | jump l test => exact jump_onward h hr
  | label l => exact label_onward h hr

theorem lowerCondition_onward {success failure next : Label}
    (h : Takes (lowerCondition lower n success failure (some next)) r u r') (hr : r.Led) :
    Onward r.values r' := by
  obtain ⟨steps, r₁, hsteps, h⟩ := lowerCondition_parts h
  have o₁ := conditioned_onward hsteps hr
  exact takes_forM (fun _ s => Onward r.values s) h o₁ fun _ _ _ _ _ _ h o =>
    o.trans (appendStep_onward hl h o.led)

/-! ## Branches -/

theorem lowerBranchTest_onward {failure : Label}
    (h : Takes (lowerBranchTest lower n failure) r u r') (hr : r.Led) : Onward r.values r' := by
  obtain ⟨r₁, test, h₁, -, h₂⟩ := lowerBranchTest_parts h
  have o₁ := lowersEach_onward hl h₁ hr
  have o₂ := lowerCondition_onward hl h₂ (o₁.led.context _ _ _ _)
  exact o₁.trans o₂

theorem lowerBranchBody_onward (h : Takes (lowerBranchBody lower n) r u r') (hr : r.Led) :
    Onward r.values r' := by
  obtain ⟨body, r₁, -, h₁, h₂⟩ := lowerBranchBody_parts h
  have o₁ := bracketed_onward h₁ hr fun {r r'} h hr => by
    obtain ⟨x?, h⟩ := h
    exact (hl h hr).1
  have b₁ : Bound r₁ r.bindings := fun b hb => o₁.leader _ (hr.bindings b hb)
  exact o₁.trans (prepared_onward (keepUsedLater_prepared h₂) o₁.led b₁)

theorem tested_onward {next : Label} (h : Tested lower n next r r') (hr : r.Led) :
    Onward r.values r' := by
  rcases h with ⟨-, h⟩ | ⟨-, rfl⟩
  · exact lowerBranchTest_onward hl h hr
  · exact hr.onward

theorem branched_onward {stop : Label} {ns : List NodeId} (h : Branched lower stop ns r r')
    (hr : r.Led) : Onward r.values r' := by
  induction h with
  | nil => exact hr.onward
  | last ht hb =>
    have o₁ := tested_onward hl ht hr
    exact o₁.trans (lowerBranchBody_onward hl hb o₁.led)
  | cons _ _ ht hb hj hx _ ih =>
    have ht := tested_onward hl ht (hr.context _ _ _ _)
    have o₁ := hr.onward.trans ht
    have o₂ := o₁.trans (lowerBranchBody_onward hl hb o₁.led)
    have o₃ := o₂.trans (jump_onward hj o₂.led)
    have o₄ := o₃.trans (label_onward hx o₃.led)
    exact o₄.trans (ih o₄.led)

theorem lowerChain_onward (h : Takes (lowerChain lower n) r u r') (hr : r.Led) :
    Onward r.values r' := by
  obtain ⟨r₁, i, r₂, r₃, h₁, h₂, h₃, h₄⟩ := lowerChain_parts h
  have o₁ := prepared_onward (h₁ []) hr (by simp)
  have o₂ := o₁.trans (marker_plain_onward h₂ o₁.led rfl)
  have hbranches := branched_onward hl h₃ (o₂.led.context _ _ _ _)
  have o₃ := o₂.trans hbranches
  exact o₃.trans (label_onward h₄ o₃.led)

/-! ## Loops -/

omit hl in
theorem rebound_onward (h : Takes (actives.forM fun b => bind b.1 b.2) r u r') (hr : r.Led)
    (ha : Bound r actives) : Onward r.values r' :=
  takes_forM (fun _ s => Onward r.values s) h hr.onward fun b _ _ _ _ hb h o =>
    o.trans (bind_onward h o.led (o.leader _ (ha b hb)))

omit hl in
theorem openSymmetry_onward {start exit : Label}
    (h : Takes (openSymmetry n start exit actives) r i r') (hr : r.Led) (ha : Bound r actives) :
    Onward r.values r' := by
  obtain ⟨r₁, h₁, rfl⟩ := openSymmetry_parts h
  have o := marker_onward h₁ hr (observed_leads ha)
  refine ⟨⟨o.led.isSet, o.led.systems, o.led.handles, o.led.instructions, o.led.bindings,
    o.led.held, ?_⟩, o.leader, o.keeps⟩
  intro l hl
  rcases List.mem_cons.mp hl with rfl | hl
  · exact fun b hb => o.leader _ (ha b hb)
  · exact o.led.loops l hl

omit hl in
theorem closeSymmetry_onward (h : Takes (closeSymmetry i actives) r u r') (hr : r.Led)
    (ha : Bound r actives) : Onward r.values r' := by
  obtain ⟨j, r₁, h₁, h₂⟩ := closeSymmetry_parts h
  have o := marker_onward h₁ hr (pairsOf_leads hr ha)
  exact o.trans (rebound_onward h₂ o.led fun b hb => o.leader _ (ha b hb))

theorem entersLoop_onward {stop : Label} (h : EntersLoop lower n stop r r') (hr : r.Led) :
    Onward r.values r' := by
  obtain ⟨r₁, r₂, r₃, test, h₁, h₂, h₃, -, h₄⟩ := h
  have o₁ := lowersEach_onward hl h₁ hr
  have o₂ := o₁.trans (prepared_onward (h₂ []) o₁.led (by simp))
  have o₃ := o₂.trans (lowersEach_onward hl h₃ o₂.led)
  have o₄ := lowerCondition_onward hl h₄ (o₃.led.context _ _ _ _)
  exact o₃.trans o₄

theorem loopRound_onward {start stop : Label} (h : LoopRound lower n start stop actives r r')
    (hr : r.Led) (ha : Bound r actives) : Onward r.values r' := by
  obtain ⟨r₁, symmetry, r₂, body, x?, r₃, r₄, r₅, r₆, test, r₇, h₁, h₂, -, h₃, h₄, h₅, h₆, -, h₇,
    h₈⟩ := h
  have bound {s : Routine} (o : Onward r.values s) : Bound s actives :=
    fun b hb => o.leader _ (ha b hb)
  have o₁ := label_onward h₁ hr
  have o₂ := o₁.trans (openSymmetry_onward h₂ o₁.led (bound o₁))
  have o₃ := o₂.trans (hl h₃ o₂.led).1
  have o₄ := o₃.trans (lowersEach_onward hl h₄ o₃.led)
  have o₅ := o₄.trans (closeSymmetry_onward h₅ o₄.led (bound o₄))
  have o₆ := o₅.trans (lowersEach_onward hl h₆ o₅.led)
  have htest := lowerCondition_onward hl h₇ (o₆.led.context _ _ _ _)
  have o₇ := o₆.trans htest
  exact o₇.trans (prepared_onward (keepAlive_prepared (fun _ => id) h₈) o₇.led (bound o₇))

theorem lowerPretested_onward (h : Takes (lowerPretested lower n) r u r') (hr : r.Led) :
    Onward r.values r' := by
  obtain ⟨r₁, save, r₂, r₃, r₄, j, h₁, h₂, h₃, h₄, h₅⟩ := lowerPretested_parts h
  have henter := entersLoop_onward hl h₁ (hr.context _ _ _ _)
  have o₁ := hr.onward.trans henter
  have o₂ := o₁.trans (marker_plain_onward h₂ o₁.led rfl)
  have hround := loopRound_onward hl h₃ (o₂.led.context _ _ _ _) o₂.led.bindings
  have o₃ := o₂.trans hround
  have hstop := label_onward h₄ (o₃.led.context _ _ _ _)
  have o₄ := o₃.trans hstop
  exact o₄.trans (marker_plain_onward h₅ o₄.led rfl)

theorem endlessRound_onward {round exit : Label}
    (h : EndlessRound lower n round exit actives r r') (hr : r.Led) (ha : Bound r actives) :
    Onward r.values r' := by
  obtain ⟨r₁, symmetry, r₂, body, x?, r₃, h₁, h₂, -, h₃, h₄⟩ := h
  have bound {s : Routine} (o : Onward r.values s) : Bound s actives :=
    fun b hb => o.leader _ (ha b hb)
  have o₁ := label_onward h₁ hr
  have o₂ := o₁.trans (openSymmetry_onward h₂ o₁.led (bound o₁))
  have o₃ := o₂.trans (hl h₃ o₂.led).1
  exact o₃.trans (closeSymmetry_onward h₄ o₃.led (bound o₃))

theorem lowerForever_onward (h : Takes (lowerForever lower n) r u r') (hr : r.Led) :
    Onward r.values r' := by
  obtain ⟨r₁, save, r₂, r₃, r₄, r₅, r₆, j, h₁, h₂, h₃, h₄, h₅, h₆, h₇⟩ := lowerForever_parts h
  have o₁ := prepared_onward (h₁ []) hr (by simp)
  have o₂ := o₁.trans (marker_plain_onward h₂ o₁.led rfl)
  have hstart := label_onward h₃ (o₂.led.context _ _ _ _)
  have o₃ := o₂.trans hstart
  have hround := endlessRound_onward hl h₄ (o₃.led.context _ _ _ _) o₃.led.bindings
  have o₄ := o₃.trans hround
  have hback := jump_onward h₅ (o₄.led.context _ _ _ _)
  have o₅ := o₄.trans hback
  have o₆ := o₅.trans (marker_plain_onward h₆ o₅.led rfl)
  exact o₆.trans (label_onward h₇ o₆.led)

omit hl in
theorem lowerControl_onward {control : LoopControl} (h : Takes (lowerControl n control) r u r')
    (hr : r.Led) : Onward r.values r' := by
  obtain ⟨loop, record, save, r₁, i, r₂, r₃, j, -, hrecord, h₁, h₂, h₃, h₄⟩ := lowerControl_parts h
  have hmem : (loop, record) ∈ r.loops := by
    obtain ⟨before, after, hloops, -⟩ := List.lookup_eq_some_iff.mp hrecord
    simp [hloops]
  have o₁ := marker_plain_onward h₁ hr rfl
  have hpairs := pairsOf_leads hr (hr.loops _ hmem)
  have o₂ := o₁.trans (marker_onward h₂ o₁.led fun q hq => o₁.leader _ (hpairs q hq))
  have o₃ := o₂.trans (jump_onward h₃ o₂.led)
  exact o₃.trans (marker_plain_onward h₄ o₃.led rfl)

/-! ## All nodes -/

/-- **The lowering of a node names leaders only**, if the lowering of its parts does. -/
theorem lowerNode_leading : Leading (lowerNode lower) := by
  intro n r r' x? h hr
  have valued {x : ValueId} (h : Onward r.values r' ∧ r'.values.Leader x) :
      Onward r.values r' ∧ ∀ y ∈ some x, r'.values.Leader y :=
    h.imp_right fun hx y hy => Option.some.inj hy ▸ hx
  have plain (h : Onward r.values r') :
      Onward r.values r' ∧ ∀ y ∈ (none : Option ValueId), r'.values.Leader y :=
    ⟨h, by simp⟩
  cases lowerNode_cases h with
  | statements _ h => exact stated_onward hl h hr (by simp)
  | number _ h => exact valued (create_onward h hr (constant_refers _))
  | reference _ h => exact valued (valueOf_onward h hr)
  | arithmetic _ _ h => exact valued (lowerArithmetic_onward hl h hr)
  | assignment _ _ h => exact valued (lowerAssignment_onward hl h hr)
  | link _ h => exact valued (lowerLink_onward hl h hr)
  | offset _ h => exact valued (lowerOffset_onward hl h hr)
  | call _ h => exact valued (lowerCall_onward hl h hr)
  | chain _ h => exact plain (lowerChain_onward hl h hr)
  | forever _ h => exact plain (lowerForever_onward hl h hr)
  | pretested _ h => exact plain (lowerPretested_onward hl h hr)
  | control _ h => exact plain (lowerControl_onward h hr)
  | ret _ h => exact plain (lowerReturn_onward hl h hr)
  | stackAddress _ h =>
    obtain ⟨o, hx⟩ := append_plain_onward h (hr.context _ _ _ _) rfl
    exact valued ⟨o, hx rfl⟩

end Constructs

theorem lowerWithin_leading (fuel : Nat) : Leading (lowerWithin fuel) := by
  induction fuel with
  | zero => exact fun h _ => absurd h not_takes_throw
  | succ fuel ih => exact lowerNode_leading ih

/-! ## Functions -/

theorem parameters_onward {vs : List VariableId} {xs : List ValueId}
    (h : Takes (vs.mapM bindParameter) r xs r') (hr : r.Led) :
    Onward r.values r' ∧ ∀ x ∈ xs, r'.values.Leader x := by
  induction vs generalizing r xs with
  | nil =>
    obtain ⟨rfl, rfl⟩ := takes_pure.mp h
    exact ⟨hr.onward, by simp⟩
  | cons v vs ih =>
    simp only [List.mapM_cons, bindParameter, takes_bind, takes_pure] at h
    obtain ⟨x, _, ⟨f, _, hf, _, r₁, hc, _, r₂, hb, rfl, rfl⟩, ys, _, hs, rfl, rfl⟩ := h
    obtain rfl := formatOfVariable_keeps hf
    obtain ⟨o₁, hx⟩ := create_onward hc hr ⟨by simp [Handle.inner], by simp⟩
    have o₂ := bind_onward hb o₁.led hx
    obtain ⟨o₃, hys⟩ := ih hs o₂.led
    refine ⟨o₁.trans (o₂.trans o₃), List.forall_mem_cons.mpr ⟨?_, hys⟩⟩
    exact o₃.leader _ (o₂.leader _ hx)

theorem bindParameters_onward (h : Takes bindParameters r u r') (hr : r.Led) :
    Onward r.values r' := by
  simp only [bindParameters, takes_bind, takes_ask, takes_pure] at h
  obtain ⟨g, _, ⟨-, rfl⟩, fs, _, hfs, _, _, hc, xs, r₁, hxs, w, _, ha, -, rfl⟩ := h
  obtain rfl := mapM_keeps (fun _ _ _ _ => formatOfVariable_keeps) hfs
  obtain rfl := checkArguments_keeps hc
  obtain ⟨o₁, hxs⟩ := parameters_onward hxs hr
  refine o₁.trans (append_onward ha o₁.led fun q hq => ?_).1
  obtain ⟨x, hx, rfl⟩ := List.mem_map.mp hq
  exact hxs x hx

/-- **The lowering of a function names leaders only.** -/
theorem lowerFunction_led {body : NodeId} (h : Takes (lowerFunction body) r u r') (hr : r.Led) :
    r'.Led := by
  obtain ⟨r₁, x?, r₂, h₁, h₂, h₃⟩ := lowerFunction_parts h
  have o₁ := bindParameters_onward h₁ hr
  simp only [Generating.lower, takes_bind, takes_get] at h₂
  obtain ⟨_, _, ⟨rfl, rfl⟩, h₂⟩ := h₂
  have o₂ := (lowerWithin_leading _ h₂ o₁.led).1
  rcases finish_parts h₃ with rfl | ⟨w, h₃⟩
  · exact o₂.led
  · exact (append_plain_onward h₃ o₂.led rfl).1.led

end Generating

theorem Routine.led_of_start {tree : Tree} {symbols : SymbolTable} {function : FunctionId}
    {config : Config} {r : Routine} (h : start tree symbols function config = .ok r) : r.Led := by
  simp only [start, Arena.bind_eq_ok, Arena.pure_eq_ok] at h
  obtain ⟨symbol, -, rfl⟩ := h
  exact ⟨Arena.isSet_empty, ⟨_, .empty⟩, .empty, by simp, by simp, by simp, by simp⟩

end Codegen
