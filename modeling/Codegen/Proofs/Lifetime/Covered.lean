import Codegen.Proofs.Steps
import Codegen.Proofs.Value.Layers
import Mathlib

/-!
# Lifetimes cover every use

The values of a function arise while its instructions are appended: results, constants, parameters
and slots. Each instruction is a use of its parameters, of all that their addresses are computed
from, and of its result. Whatever is appended later, the places of older values stay, so an address
never comes to reach more than it did when it was used.

* `Routine.Change`, `Generating.perform`: **what values arise from**;
* `Routine.Fitting`: changes that name values which are there;
* `Routine.Covered`: **each instruction lies in the lifetimes of all that it uses**;
* `Covered.exists_append`, `Covered.exists_perform`: each change succeeds and keeps it;
* `Covered.exists_performs`: so does each sequence of changes.
-/

namespace Codegen

/-! ## Changes -/

/-- A change of a routine that its instructions are being appended to. -/
inductive Routine.Change
  | constant (value : Number) (format : Format)
  /-- The value of an incoming parameter. -/
  | parameter (v : VariableId) (format : Format)
  /-- The slot of a variable without a value. -/
  | slot (v : VariableId) (format : Format)
  | bind (v : VariableId) (x : ValueId)
  | append (kind : InstructionKind) (format : Format)

namespace Routine.Change

/-- The values that a change names are among the first ones. -/
def Fits (size : Nat) : Change → Prop
  | bind _ x => x < size
  | append kind _ => ∀ q ∈ kind.parameters, q.value < size
  | _ => True

instance (size : Nat) : (c : Change) → Decidable (c.Fits size)
  | bind _ x => inferInstanceAs (Decidable (x < size))
  | append kind _ => inferInstanceAs (Decidable (∀ q ∈ kind.parameters, q.value < size))
  | constant .. | parameter .. | slot .. => isTrue trivial

/-- The number of values that a change makes. -/
def made : Change → Nat
  | bind .. => 0
  | _ => 1

/-- The instruction that a change appends. -/
def kind? : Change → Option InstructionKind
  | append kind _ => some kind
  | _ => none

end Routine.Change

/-- Each change names values that are there by then. -/
def Routine.Fitting : Nat → List Routine.Change → Prop
  | _, [] => True
  | size, c :: cs => c.Fits size ∧ Fitting (size + c.made) cs

instance Routine.Fitting.decidable : (size : Nat) → (cs : List Routine.Change) →
    Decidable (Routine.Fitting size cs)
  | _, [] => isTrue trivial
  | size, c :: cs => @instDecidableAnd _ _ _ (decidable (size + c.made) cs)

/-- The number of values that changes make. -/
def Routine.made (cs : List Routine.Change) : Nat := (cs.map Change.made).sum

theorem Routine.fitting_append {size : Nat} {cs cs' : List Routine.Change} :
    Fitting size (cs ++ cs') ↔ Fitting size cs ∧ Fitting (size + made cs) cs' := by
  induction cs generalizing size with
  | nil => simp [Fitting, made]
  | cons c cs ih => simp [Fitting, ih, made, and_assoc, Nat.add_assoc]

namespace Generating

/-- Makes a change. -/
def perform : Routine.Change → Generating Unit
  | .constant n format => do let _ ← create (.constant n) format
  | .parameter v format => do bind v (← create .none format)
  | .slot v format => do bind v (← create (.variableSlot v) format)
  | .bind v x => bind v x
  | .append kind format => do let _ ← append kind format

end Generating

/-! ## The invariant -/

/-- **Each instruction lies in the lifetimes of its result, of its parameters, and of all that their
addresses are computed from.** -/
structure Routine.Covered (r : Routine) : Prop where
  /-- Nothing is built yet. -/
  snapshots : r.snapshots = []
  layered : r.values.Layered
  isSet : r.values.IsSet
  parameters : ∀ i ∈ r.instructions, i.parameters = i.kind.parameters
  named : ∀ i ∈ r.instructions, ∀ q ∈ i.parameters, q.value < r.values.size
  result : ∀ {p : Nat} {i}, r.instructions[p]? = some i → r.values.Covers i.result p
  reached : ∀ {p : Nat} {i}, r.instructions[p]? = some i → ∀ q ∈ i.parameters, ∀ {w},
    r.values.Reaches q.value w → r.values.Covers w p

theorem InstructionKind.inner_initialHandle {kind : InstructionKind} {w : ValueId}
    (h : w ∈ kind.initialHandle.inner) : ∃ q ∈ kind.parameters, q.value = w := by
  cases kind <;> simp_all [initialHandle, Handle.inner, parameters, eq_comm]

namespace Arena.Layered

variable {a : Arena} {v : ValueId} {h : Handle}

theorem exists_setMetadata (ha : a.Layered) (hs : a.IsSet) (hv : v < a.size) (m : Metadata) :
    ∃ b, a.setMetadata v m false = .ok b ∧ a.Marked b := by
  obtain ⟨R, hR⟩ := ha.systems
  obtain ⟨b, hb, -⟩ := hR.exists_updateAll hv false fun c => { c with metadata := m }
  exact ⟨b, hb, setMetadata_marked hs hb⟩

/-- The result of an instruction is a new value that stands alone. -/
theorem exists_result (ha : a.Layered) (hs : a.IsSet) (hh : ∀ w ∈ h.inner, w < a.size)
    (k : Format) (m : Metadata) (i : Nat) :
    ∃ b c, (a.create h k).2.setMetadata a.size m false = .ok b ∧
      b.setInstruction a.size i = .ok c ∧ c.Layered ∧ a.Grows c ∧ c.size = a.size + 1 ∧
      c.neighbours a.size = [] ∧ ∀ u < a.size, c.handleAt u = a.handleAt u := by
  have hl := ha.create k hh
  obtain ⟨hg, hn⟩ := create_grows hs h k
  have he := create_sameEdges a h k
  have hv : a.size < (a.create h k).2.size := hn ▸ Nat.lt_succ_self _
  obtain ⟨b, hb, m₁⟩ := hl.exists_setMetadata hg.isSet hv m
  obtain ⟨c, hc⟩ := exists_update (m₁.size ▸ hv) fun c : Cell =>
    { c with instruction? := some i }
  have m₂ := m₁.trans (setInstruction_marked m₁.grows.isSet hc)
  refine ⟨b, c, hb, hc, hl.marked m₂, hg.trans m₂.grows, m₂.size.trans hn, ?_, fun u hu => ?_⟩
  · rw [(he.trans m₂.edges).neighbours, List.eq_nil_iff_forall_not_mem]
    exact fun w hw => Nat.lt_irrefl _ (lt_size_of_mem_neighbours hw)
  · rw [m₂.handles, handleAt_create, if_neg (Nat.ne_of_lt hu)]

end Arena.Layered

namespace Routine.Covered

open Generating

variable {r : Routine} {values : Arena} {v : VariableId} {x : ValueId} {kind : InstructionKind}
  {format : Format} {h : Handle}

theorem bindings (hr : r.Covered) (bindings : List Binding) : { r with bindings }.Covered :=
  { hr with }

theorem revalued (hr : r.Covered) (hl : values.Layered) (hg : r.values.Grows values)
    (hh : ∀ u < r.values.size, values.handleAt u = r.values.handleAt u) :
    { r with values }.Covered where
  snapshots := hr.snapshots
  layered := hl
  isSet := hg.isSet
  parameters := hr.parameters
  named i hi q hq := Nat.lt_of_lt_of_le (hr.named i hi q hq) hg.size
  result hi := hg.covers _ _ (hr.result hi)
  reached hi q hq w hw := by
    have hq' := hr.named _ (Array.mem_of_getElem? hi) q hq
    exact hg.covers _ _ (hr.reached hi q hq (hr.layered.reaches_of_handles hh hq' hw))

theorem marked (hr : r.Covered) (h : r.values.Marked values) : { r with values }.Covered :=
  hr.revalued (hr.layered.marked h) h.grows fun u _ => h.handles u

theorem push (hr : r.Covered) {i : Instruction} (hk : i.parameters = i.kind.parameters)
    (hn : ∀ q ∈ i.parameters, q.value < r.values.size)
    (hx : r.values.Covers i.result r.instructions.size)
    (hi : ∀ q ∈ i.parameters, ∀ w, r.values.Reaches q.value w →
      r.values.Covers w r.instructions.size) :
    { r with instructions := r.instructions.push i }.Covered where
  snapshots := hr.snapshots
  layered := hr.layered
  isSet := hr.isSet
  parameters j hj := by
    rcases Array.mem_push.mp hj with hj | rfl
    · exact hr.parameters j hj
    · exact hk
  named j hj := by
    rcases Array.mem_push.mp hj with hj | rfl
    · exact hr.named j hj
    · exact hn
  result {p j} hj := by
    rw [Array.getElem?_push] at hj
    split at hj
    next hp =>
      obtain rfl := Option.some.inj hj
      exact hp ▸ hx
    next => exact hr.result hj
  reached {p j} hj q hq w hw := by
    rw [Array.getElem?_push] at hj
    split at hj
    next hp =>
      obtain rfl := Option.some.inj hj
      exact hp ▸ hi q hq w hw
    next => exact hr.reached hj q hq hw

/-! ## Values -/

theorem create (hr : r.Covered) (hh : ∀ w ∈ h.inner, w < r.values.size) (format : Format) :
    { r with values := (r.values.create h format).2 }.Covered :=
  hr.revalued (hr.layered.create format hh) (Arena.create_grows hr.isSet h format).1 fun u hu => by
    rw [Arena.handleAt_create, if_neg (Nat.ne_of_lt hu)]

theorem exists_bind (hr : r.Covered) (hx : x < r.values.size) (v : VariableId) :
    ∃ r', Takes (Generating.bind v x) r () r' ∧ r'.Covered ∧ r.values.Marked r'.values ∧
      r'.kinds = r.kinds := by
  have hcell : r.values.cell? x = some r.values.cells[x] := Array.getElem?_eq_getElem hx
  obtain ⟨values, hv, hm⟩ := hr.layered.exists_setMetadata hr.isSet hx _
  refine ⟨_, takes_bind.mpr ⟨(), _, takes_bind.mpr ⟨_, _, takes_cellOf.mpr ⟨hcell, rfl⟩,
    takes_changeValues.mpr ⟨values, hv, rfl⟩⟩, takes_modify.mpr rfl⟩, (hr.marked hm).bindings _, hm,
    rfl⟩

/-- A fresh value that is bound to a variable. -/
theorem exists_create_bind (hr : r.Covered) (hh : h.inner = []) (v : VariableId)
    (format : Format) : ∃ r', Takes (do Generating.bind v (← Generating.create h format)) r () r' ∧
      r'.Covered ∧ r.values.Grows r'.values ∧ r'.values.size = r.values.size + 1 ∧
      r'.kinds = r.kinds ++ [] := by
  obtain ⟨hg, hn⟩ := Arena.create_grows hr.isSet h format
  obtain ⟨r', hb, hr', hm, hk⟩ := (hr.create (h := h) (by simp [hh]) format).exists_bind
    (x := r.values.size) (hn ▸ Nat.lt_succ_self _) v
  exact ⟨r', takes_bind.mpr ⟨_, _, takes_create.mpr ⟨rfl, rfl⟩, hb⟩, hr', hg.trans hm.grows,
    hm.size.trans hn, hk.trans (List.append_nil _).symm⟩

/-! ## Instructions -/

end Routine.Covered

namespace Generating

variable {r : Routine} {kind : InstructionKind} {x : ValueId}

/-- The parameters of an instruction are used, with all that they reach. -/
theorem exists_uses {ps : List Parameter} (ha : r.values.Layered) (hs : r.values.IsSet)
    (hq : ∀ q ∈ ps, q.value < r.values.size) (p : Nat) :
    ∃ values, Takes (ps.forM fun q => useAt q.value p) r () { r with values } ∧
      r.values.Marked values ∧
      ∀ q ∈ ps, ∀ w, r.values.Reaches q.value w → values.Covers w p := by
  induction ps generalizing r with
  | nil => exact ⟨r.values, takes_pure.mpr ⟨rfl, rfl⟩, .refl hs, by simp⟩
  | cons q ps ih =>
    obtain ⟨hq, hps⟩ := List.forall_mem_cons.mp hq
    obtain ⟨a, ha', hm, hc⟩ := ha.exists_useAt hs (Int.natCast_nonneg p) hq
    obtain ⟨values, ht, hm', hc'⟩ := ih (r := { r with values := a }) (ha.marked hm) hm.grows.isSet
      fun q hq => hm.size ▸ hps q hq
    refine ⟨values, takes_bind.mpr ⟨(), _, takes_changeValues.mpr ⟨a, ha', rfl⟩, ht⟩,
      hm.trans hm', List.forall_mem_cons.mpr ⟨fun w hw => ?_, fun q hq w hw => ?_⟩⟩
    · exact hm'.grows.covers w p (hc w hw)
    · exact hc' q hq w (hm.reaches.mpr hw)

/-- The result of a store or a read takes the place of a parameter. -/
theorem exists_joinResult (ha : r.values.Layered) (hs : r.values.IsSet) (hx : x < r.values.size)
    (hk : ∀ q ∈ kind.parameters, q.value < x) (hnew : r.values.neighbours x = []) :
    ∃ values, Takes (joinResult x kind) r () { r with values } ∧ values.Layered ∧
      r.values.Grows values ∧ values.size = r.values.size ∧
      ∀ v ≠ x, values.handleAt v = r.values.handleAt v := by
  unfold joinResult
  split
  next destination source =>
    obtain ⟨b, hb, h⟩ := ha.exists_join hs hx (hk ⟨destination, .stored⟩ (by
      simp [InstructionKind.parameters])) hnew (by simp : JoinMode.full ≠ .noReceive)
    exact ⟨b, takes_changeValues.mpr ⟨b, hb, rfl⟩, h⟩
  next owner value =>
    obtain ⟨b, hb, h⟩ := ha.exists_join hs hx (hk ⟨value, .read⟩ (by
      simp [InstructionKind.parameters])) hnew (by simp : JoinMode.noSend ≠ .noReceive)
    exact ⟨b, takes_changeValues.mpr ⟨b, hb, rfl⟩, h⟩
  next => exact ⟨r.values, takes_pure.mpr ⟨rfl, rfl⟩, ha, .refl hs, rfl, fun _ _ => rfl⟩

end Generating

namespace Routine.Covered

open Generating

variable {r : Routine} {kind : InstructionKind}

/-- **An instruction is appended**, and lies in the lifetimes of all that it uses. -/
theorem exists_append (hr : r.Covered) (hk : ∀ q ∈ kind.parameters, q.value < r.values.size)
    (format : Format) : ∃ r', Takes (append kind format) r r.values.size r' ∧ r'.Covered ∧
      r.values.Grows r'.values ∧ r'.values.size = r.values.size + 1 := by
  -- the result is made
  obtain ⟨a₁, a₂, h₁, h₂, l₂, g₂, n₂, e₂, i₂⟩ := hr.layered.exists_result hr.isSet
    (h := kind.initialHandle) (fun w hw => by
      obtain ⟨q, hq, rfl⟩ := kind.inner_initialHandle hw
      exact hk q hq) format kind.initialMetadata r.instructions.size
  have hx : r.values.size < a₂.size := n₂ ▸ Nat.lt_succ_self _
  -- the parameters and the result are used
  obtain ⟨a₃, h₃, m₃, hc⟩ := exists_uses (r := { r with values := a₂ }) l₂ g₂.isSet
    (fun q hq => Nat.lt_trans (hk q hq) hx) r.instructions.size
  obtain ⟨a₄, h₄, m₄, hc'⟩ := (l₂.marked m₃).exists_useAt m₃.grows.isSet
    (Int.natCast_nonneg r.instructions.size) (m₃.size ▸ hx)
  have m := m₃.trans m₄
  -- the result joins a parameter
  obtain ⟨a₅, h₅, l₅, g₅, n₅, i₅⟩ := exists_joinResult (r := { r with values := a₄ })
    (l₂.marked m) m.grows.isSet (m.size ▸ hx) hk ((m.edges.neighbours _).trans e₂)
  have hgrows : r.values.Grows a₅ := g₂.trans (m.grows.trans g₅)
  have hhandles (u : ValueId) (hu : u < r.values.size) : a₅.handleAt u = a₂.handleAt u :=
    (i₅ u (Nat.ne_of_lt hu)).trans (m.handles u)
  refine ⟨{ r with
      values := a₅
      instructions := r.instructions.push ⟨kind, r.values.size, kind.parameters, []⟩ },
    ?_, ?_, hgrows, n₅.trans (m.size.trans n₂)⟩
  · exact takes_bind.mpr ⟨r, r, takes_get.mpr ⟨rfl, rfl⟩,
      takes_bind.mpr ⟨_, _, takes_create.mpr ⟨rfl, rfl⟩,
      takes_bind.mpr ⟨(), _, takes_changeValues.mpr ⟨a₁, h₁, rfl⟩,
      takes_bind.mpr ⟨(), _, takes_changeValues.mpr ⟨a₂, h₂, rfl⟩,
      takes_bind.mpr ⟨(), _, h₃,
      takes_bind.mpr ⟨(), _, takes_changeValues.mpr ⟨a₄, h₄, rfl⟩,
      takes_bind.mpr ⟨(), _, h₅,
      takes_bind.mpr ⟨(), _, takes_modify.mpr rfl, takes_pure.mpr ⟨rfl, rfl⟩⟩⟩⟩⟩⟩⟩⟩⟩
  · refine (hr.revalued l₅ hgrows fun u hu => (hhandles u hu).trans (i₂ u hu)).push rfl
      (fun q hq => Nat.lt_of_lt_of_le (hk q hq) hgrows.size) (g₅.covers _ _ (hc' _ .refl))
      fun q hq w hw => ?_
    have hw : a₂.Reaches q.value w := l₂.reaches_of_handles hhandles (hk q hq) hw
    exact (m₄.grows.trans g₅).covers w _ (hc q hq w hw)

/-! ## Sequences of changes -/

/-- **Each change succeeds and keeps what was covered.** -/
theorem exists_perform (hr : r.Covered) {c : Change} (hc : c.Fits r.values.size) :
    ∃ r', Takes (perform c) r () r' ∧ r'.Covered ∧ r.values.Grows r'.values ∧
      r'.values.size = r.values.size + c.made ∧ r'.kinds = r.kinds ++ c.kind?.toList := by
  cases c with
  | constant n format =>
    obtain ⟨hg, hn⟩ := Arena.create_grows hr.isSet (.constant n) format
    exact ⟨_, takes_bind.mpr ⟨_, _, takes_create.mpr ⟨rfl, rfl⟩, takes_pure.mpr ⟨rfl, rfl⟩⟩,
      hr.create (by simp [Handle.inner]) format, hg, hn, (List.append_nil _).symm⟩
  | parameter v format => exact hr.exists_create_bind rfl v format
  | slot v format => exact hr.exists_create_bind rfl v format
  | bind v x =>
    obtain ⟨r', ht, hr', hm, hk⟩ := hr.exists_bind hc v
    exact ⟨r', ht, hr', hm.grows, hm.size, hk.trans (List.append_nil _).symm⟩
  | append kind format =>
    obtain ⟨r', ht, hr', hg, hn⟩ := hr.exists_append hc format
    exact ⟨r', takes_bind.mpr ⟨_, _, ht, takes_pure.mpr ⟨rfl, rfl⟩⟩, hr', hg, hn,
      (append_appended ht).kinds⟩

/-- **Each sequence of changes succeeds and keeps what was covered.** -/
theorem exists_performs (hr : r.Covered) {cs : List Change} (hc : Fitting r.values.size cs) :
    ∃ r', Takes (cs.forM perform) r () r' ∧ r'.Covered ∧ r.values.Grows r'.values ∧
      r'.values.size = r.values.size + made cs ∧ r'.kinds = r.kinds ++ cs.filterMap Change.kind? := by
  induction cs generalizing r with
  | nil => exact ⟨r, takes_pure.mpr ⟨rfl, rfl⟩, hr, .refl hr.isSet, rfl, (List.append_nil _).symm⟩
  | cons c cs ih =>
    obtain ⟨r₁, h₁, hr₁, hg, hn, hk⟩ := hr.exists_perform hc.1
    obtain ⟨r', h₂, hr', hg', hn', hk'⟩ := ih hr₁ (hn ▸ hc.2)
    refine ⟨r', takes_bind.mpr ⟨(), r₁, h₁, h₂⟩, hr', hg.trans hg', ?_, ?_⟩
    · rw [hn', hn, made, made, List.map_cons, List.sum_cons, Nat.add_assoc]
    · rw [hk', hk, List.append_assoc]
      cases h : c.kind? <;> simp [h]

end Routine.Covered

end Codegen
