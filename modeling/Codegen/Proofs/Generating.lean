import Codegen.Routine.Append

/-!
# Reasoning about steps of a generation

A step of a generation is a state transformer that may stop with a fault. `Generating.Runs` says
that a step succeeds and tells of its value and of the routine after it; proofs follow the steps of
a function one by one.

* `Generating.Runs`, `Runs.bind`, `Runs.mono`, `Runs.of_eq`: steps that succeed;
* `Generating.bind_of_ok`: the first step of a sequence;
* `handleOf_eq`, `setHandle_eq`, ...: the steps that ask and change values;
* `Target.argumentRegisters_integers`: the registers of integer arguments.
-/

namespace Codegen

/-! ## Arguments -/

theorem Target.distribute_integers (t : Target) (media : List Register) {formats : List Format}
    (hf : ∀ f ∈ formats, f.isDecimal = false) (general : List Register) :
    t.distribute general media formats =
      if formats.length ≤ general.length then .ok (general.take formats.length)
      else .error t.parameters.length := by
  induction formats generalizing general with
  | nil => rfl
  | cons f rest ih =>
    have hrest : ∀ g ∈ rest, g.isDecimal = false := fun g hg => hf g (List.mem_cons_of_mem _ hg)
    unfold Target.distribute
    rw [hf f List.mem_cons_self]
    cases general with
    | nil => rfl
    | cons q general =>
      simp only [Bool.false_eq_true, if_false, ih hrest, List.length_cons,
        Nat.add_le_add_iff_right, List.take_succ_cons]
      split <;> rfl

/-- Integer arguments get the registers in order, as many as there are. -/
theorem Target.argumentRegisters_integers (t : Target) {formats : List Format}
    (hf : ∀ f ∈ formats, f.isDecimal = false) :
    t.argumentRegisters formats =
      if formats.length ≤ t.parameters.length then .ok (t.parameters.take formats.length)
      else .error t.parameters.length :=
  t.distribute_integers _ hf _

namespace Arena

/-! ## Values without edges -/

/-- The present handle of a value. -/
def handleAt (a : Arena) (v : ValueId) : Handle := ((a.cell? v).map Cell.handle).getD .none

/-- The cells with another handle for one value. -/
def withHandle (a : Arena) (v : ValueId) (h : Handle) : Arena :=
  ⟨a.cells.modify v fun c => { c with handle := h }⟩

variable {a : Arena} {v w : ValueId} {c : Cell}

theorem cell?_lt (h : a.cell? v = some c) : v < a.size :=
  (Array.getElem?_eq_some_iff.mp h).1

theorem exists_cell (h : v < a.size) : ∃ c, a.cell? v = some c :=
  ⟨_, Array.getElem?_eq_getElem h⟩

theorem handleAt_eq (h : a.cell? v = some c) : a.handleAt v = c.handle := by
  rw [handleAt, h]
  rfl

theorem cell?_withHandle (a : Arena) (v w : ValueId) (h : Handle) :
    (a.withHandle v h).cell? w =
      (a.cell? w).map fun c => if w = v then { c with handle := h } else c := by
  simp only [cell?, withHandle, Array.getElem?_modify]
  by_cases hw : w = v
  · subst hw
    simp
  · simp [hw, Ne.symm hw]

theorem handleAt_withHandle (hv : v < a.size) (w : ValueId) (h : Handle) :
    (a.withHandle v h).handleAt w = if w = v then h else a.handleAt w := by
  rw [handleAt, cell?_withHandle]
  by_cases hw : w = v
  · subst hw
    have : a.cell? w = some a.cells[w] := Array.getElem?_eq_getElem hv
    simp [this]
  · simp [hw, handleAt]

theorem receivers_eq_nil (h : a.cell? v = some c) (he : c.edges = []) : a.receivers v = [] := by
  rw [receivers, h]
  simp [he]

theorem setHandle_eq (h : a.cell? v = some c) (he : c.edges = []) (new : Handle) :
    a.setHandle v new false = .ok (a.withHandle v new) := by
  have hv := cell?_lt h
  simp only [setHandle, audience, receivers_eq_nil h he, Bool.false_eq_true, if_false, updateAll,
    List.foldlM_cons, List.foldlM_nil, update, hv, if_true]
  rfl

end Arena

namespace Generating

variable {α β : Type} {g : Generating α} {f : α → Generating β} {r r' : Routine} {a : α}

/-! ## Sequences -/

theorem bind_of_ok (h : g r = .ok a r') : (g >>= f) r = f a r' := by
  change EStateM.bind g f r = f a r'
  rw [EStateM.bind, h]

theorem bind_of_error {e : Fault} (h : g r = .error e r') : (g >>= f) r = .error e r' := by
  change EStateM.bind g f r = .error e r'
  rw [EStateM.bind, h]

/-- The step succeeds, and something holds of its value and of the routine after it. -/
def Runs (g : Generating α) (r : Routine) (Q : α → Routine → Prop) : Prop :=
  ∃ a r', g r = .ok a r' ∧ Q a r'

variable {Q Q' : α → Routine → Prop} {P : β → Routine → Prop}

theorem Runs.of_eq (h : g r = .ok a r') (hq : Q a r') : Runs g r Q := ⟨a, r', h, hq⟩

theorem Runs.pure (h : Q a r) : Runs (Pure.pure a) r Q := ⟨a, r, rfl, h⟩

theorem Runs.bind (h : Runs g r Q) (hf : ∀ a r', Q a r' → Runs (f a) r' P) :
    Runs (g >>= f) r P := by
  obtain ⟨a, r', hg, hq⟩ := h
  obtain ⟨b, r'', hf, hp⟩ := hf a r' hq
  exact ⟨b, r'', by rw [bind_of_ok hg, hf], hp⟩

theorem Runs.step (h : g r = .ok a r') (hf : Runs (f a) r' P) : Runs (g >>= f) r P := by
  obtain ⟨b, r'', hf, hp⟩ := hf
  exact ⟨b, r'', by rw [bind_of_ok h, hf], hp⟩

theorem Runs.mono (h : Runs g r Q) (hq : ∀ a r', Q a r' → Q' a r') : Runs g r Q' := by
  obtain ⟨a, r', hg, h⟩ := h
  exact ⟨a, r', hg, hq a r' h⟩

theorem Runs.forM {γ : Type} {xs : List γ} {k : γ → Generating Unit} (I : List γ → Routine → Prop)
    (h : I xs r) (hk : ∀ x rest r, I (x :: rest) r → Runs (k x) r fun _ r' => I rest r') :
    Runs (xs.forM k) r fun _ r' => I [] r' := by
  induction xs generalizing r with
  | nil => exact .pure h
  | cons x xs ih => exact .bind (hk x xs r h) fun _ r' hr' => ih hr'

theorem mapM_eq {γ : Type} {xs : List γ} {k : γ → Generating β} {b : γ → β}
    (h : ∀ x ∈ xs, k x r = .ok (b x) r) : xs.mapM k r = .ok (xs.map b) r := by
  induction xs with
  | nil => rfl
  | cons x xs ih =>
    rw [List.mapM_cons, bind_of_ok (h x List.mem_cons_self),
      bind_of_ok (ih fun y hy => h y (List.mem_cons_of_mem _ hy))]
    rfl

/-! ## Questions and changes -/

section Steps

variable {v : ValueId} {c : Cell} {p : Nat}

theorem ask_eq {γ : Type} {q : Routine → Except Fault γ} {x : γ} (h : q r = .ok x) :
    ask q r = .ok x r := by
  rw [ask, h]

theorem cellOf_eq (h : r.values.cell? v = some c) : cellOf v r = .ok c r := by
  refine ask_eq ?_
  rw [Arena.cell, h]
  rfl

theorem handleOf_eq (h : r.values.cell? v = some c) : handleOf v r = .ok c.handle r :=
  bind_of_ok (cellOf_eq h)

theorem formatOf_eq (h : r.values.cell? v = some c) : formatOf v r = .ok c.format r :=
  bind_of_ok (cellOf_eq h)

theorem isValid_eq (h : r.values.cell? v = some c) (p : Nat) :
    isValid v p r = .ok (c.lifetime.covers p) r := by
  refine ask_eq ?_
  rw [Arena.isValid, Arena.cell, h]
  rfl

theorem isExpiring_eq (h : r.values.cell? v = some c) :
    isExpiring v r = .ok (!c.lifetime.covers (r.position + 1)) r := by
  refine ask_eq ?_
  rw [Arena.isExpiring, Arena.isValid, Arena.cell, h]
  rfl

theorem changeValues_eq {k : Arena → Except Fault Arena} {values : Arena}
    (h : k r.values = .ok values) : changeValues k r = .ok () { r with values } := by
  rw [changeValues, h]

theorem changeRegisters_eq {k : RegisterFile → Except RegisterError RegisterFile}
    (registers : RegisterFile) (h : k r.registers = .ok registers) :
    changeRegisters k r = .ok () { r with registers } := by
  rw [changeRegisters, h]

theorem setHandle_eq (h : r.values.cell? v = some c) (he : c.edges = []) (new : Handle) :
    setHandle v new r = .ok () { r with values := r.values.withHandle v new } :=
  changeValues_eq (Arena.setHandle_eq h he new)

end Steps

end Generating

end Codegen
