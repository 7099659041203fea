import Codegen.Proofs.Steps

/-!
# Invariants of steps

A property of routines is an invariant of a step if it holds behind the step whenever it holds
ahead of it. Most steps also tell something of the value that they give, such as a form that an
operand has. Both are shown of a sequence from its parts.

* `Generating.Ensures`: **a step that keeps a property of routines, and a property of its value**;
* `Generating.Preserves`: a step that keeps a property of routines;
* `Ensures.bind`, `ite`, `forM`, ...: the building blocks of steps;
* `Ensures.question`: a step that only asks.
-/

namespace Codegen.Generating

variable {α β γ : Type} {I : Routine → Prop} {P Q : α → Prop} {R : β → Prop}
variable {g h : Generating α} {f : α → Generating β}

/-- **The step keeps a property of routines, and its value has another property.** -/
def Ensures (I : Routine → Prop) (g : Generating α) (Q : α → Prop) : Prop :=
  ∀ r a r', I r → Takes g r a r' → I r' ∧ Q a

/-- The step keeps a property of routines. -/
abbrev Preserves (I : Routine → Prop) (g : Generating α) : Prop := Ensures I g fun _ => True

namespace Ensures

/-! ## Building blocks -/

theorem mono (hg : Ensures I g P) (hPQ : ∀ a, P a → Q a) : Ensures I g Q := fun r a r' hr h =>
  (hg r a r' hr h).imp_right (hPQ a)

theorem preserves (hg : Ensures I g P) : Preserves I g := hg.mono fun _ _ => trivial

theorem pure {a : α} (ha : Q a) : Ensures I (pure a) Q := fun _ _ _ hr h => by
  obtain ⟨rfl, rfl⟩ := takes_pure.mp h
  exact ⟨hr, ha⟩

theorem bind (hg : Ensures I g P) (hf : ∀ a, P a → Ensures I (f a) R) :
    Ensures I (g >>= f) R := fun r b r'' hr h => by
  obtain ⟨a, r', h₁, h₂⟩ := takes_bind.mp h
  obtain ⟨hr', ha⟩ := hg r a r' hr h₁
  exact hf a ha r' b r'' hr' h₂

theorem seq (hg : Preserves I g) (hf : ∀ a, Ensures I (f a) R) : Ensures I (g >>= f) R :=
  bind hg fun a _ => hf a

theorem last {k : α → β} (hg : Ensures I g P) (hk : ∀ a, P a → R (k a)) :
    Ensures I (g >>= fun a => Pure.pure (k a)) R :=
  bind hg fun a ha => pure (hk a ha)

theorem map {k : α → β} (hg : Ensures I g P) (hk : ∀ a, P a → R (k a)) :
    Ensures I (k <$> g) R := fun r b r' hr h => by
  obtain ⟨a, h₁, rfl⟩ := takes_map.mp h
  exact (hg r a r' hr h₁).imp_right (hk a)

theorem get : Ensures I get I := fun _ _ _ hr h => by
  obtain ⟨rfl, rfl⟩ := takes_get.mp h
  exact ⟨hr, hr⟩

theorem modify {k : Routine → Routine} (hk : ∀ r, I r → I (k r)) : Preserves I (modify k) :=
  fun r _ _ hr h => by
    obtain rfl := takes_modify.mp h
    exact ⟨hk r hr, trivial⟩

theorem modifyGet {k : Routine → α × Routine} (hk : ∀ r, I r → I (k r).2) :
    Preserves I (modifyGet k) := fun r _ _ hr h => by
  obtain ⟨rfl, rfl⟩ := takes_modifyGet.mp h
  exact ⟨hk r hr, trivial⟩

theorem set {s : Routine} (hs : I s) : Preserves I (set s) := fun _ _ _ _ h => by
  cases h
  exact ⟨hs, trivial⟩

theorem ite {c : Prop} [Decidable c] (hg : c → Ensures I g Q) (hh : ¬ c → Ensures I h Q) :
    Ensures I (if c then g else h) Q := by
  split
  next hc => exact hg hc
  next hc => exact hh hc

/-! ## Steps that stop -/

theorem throw {e : Fault} : Ensures I (throw e : Generating α) Q := fun _ _ _ _ h =>
  absurd h not_takes_throw

theorem refuse {c : Inconsistency} : Ensures I (refuse c : Generating α) Q := throw

theorem unsupported {c : Unsupported} : Ensures I (unsupported c : Generating α) Q :=
  fun _ _ _ _ h => absurd h not_takes_unsupported

theorem required {c : Inconsistency} {o : Option α} : Ensures I (required c o) (o = some ·) :=
  fun _ _ _ hr h => by
    obtain ⟨ho, rfl⟩ := takes_required.mp h
    exact ⟨hr, ho⟩

/-! ## Questions and changes -/

theorem question (hg : ∀ r a r', Takes g r a r' → r' = r) : Preserves I g :=
  fun r a r' hr h => ⟨hg r a r' h ▸ hr, trivial⟩

theorem ask {q : Routine → Except Fault α} : Preserves I (ask q) :=
  question fun _ _ _ h => (takes_ask.mp h).2

theorem changeValues {k : Arena → Except Fault Arena}
    (hk : ∀ r values, I r → k r.values = .ok values → I { r with values }) :
    Preserves I (changeValues k) := fun r _ _ hr h => by
  obtain ⟨values, hv, rfl⟩ := takes_changeValues.mp h
  exact ⟨hk r values hr hv, trivial⟩

theorem changeRegisters {k : RegisterFile → Except RegisterError RegisterFile}
    (hk : ∀ r registers, I r → k r.registers = .ok registers → I { r with registers }) :
    Preserves I (changeRegisters k) := fun r _ _ hr h => by
  obtain ⟨registers, hg, rfl⟩ := takes_changeRegisters.mp h
  exact ⟨hk r registers hr hg, trivial⟩

/-! ## Loops -/

theorem forM {xs : List γ} {k : γ → Generating Unit} (hk : ∀ x ∈ xs, Preserves I (k x)) :
    Preserves I (xs.forM k) := by
  induction xs with
  | nil => exact pure trivial
  | cons x xs ih =>
    exact seq (hk x List.mem_cons_self) fun _ => ih fun y hy => hk y (List.mem_cons_of_mem _ hy)

theorem mapM {xs : List γ} {k : γ → Generating β} (hk : ∀ x ∈ xs, Ensures I (k x) R) :
    Ensures I (xs.mapM k) fun bs => ∀ b ∈ bs, R b := by
  induction xs with
  | nil => exact pure (by simp)
  | cons x xs ih =>
    have ih := ih fun y hy => hk y (List.mem_cons_of_mem _ hy)
    rw [List.mapM_cons]
    exact bind (hk x List.mem_cons_self) fun b hb =>
      last ih fun bs hbs => List.forall_mem_cons.mpr ⟨hb, hbs⟩

theorem filterMapM {xs : List γ} {k : γ → Generating (Option β)}
    (hk : ∀ x ∈ xs, Ensures I (k x) fun o => ∀ b, o = some b → R b) :
    Ensures I (xs.filterMapM k) fun bs => ∀ b ∈ bs, R b := by
  induction xs with
  | nil => exact pure (by simp)
  | cons x xs ih =>
    have ih := ih fun y hy => hk y (List.mem_cons_of_mem _ hy)
    rw [List.filterMapM_cons]
    refine bind (hk x List.mem_cons_self) fun o ho => ?_
    cases o with
    | none => exact ih
    | some b => exact last ih fun bs hbs => List.forall_mem_cons.mpr ⟨ho b rfl, hbs⟩

theorem optionForM {o : Option γ} {k : γ → Generating Unit} (hk : ∀ x, Preserves I (k x)) :
    Preserves I (o.forM k) := by
  cases o with
  | none => exact pure trivial
  | some x => exact hk x

end Ensures

/-! ## Questions of a routine -/

section

variable {v : ValueId} {w : VariableId} {r : Register} {p bank : Nat} {t : Option TypeId}

theorem cellOf_preserves : Preserves I (cellOf v) := .ask

theorem formatOf_preserves : Preserves I (formatOf v) := .question fun _ _ _ => formatOf_keeps

theorem isValid_preserves : Preserves I (isValid v p) := .ask

theorem isExpiring_preserves : Preserves I (isExpiring v) := .ask

theorem variableOf_preserves : Preserves I (variableOf w) := .ask

theorem formatOfType_preserves : Preserves I (formatOfType t) :=
  .question fun _ _ _ => formatOfType_keeps

theorem formatOfVariable_preserves : Preserves I (formatOfVariable w) :=
  .question fun _ _ _ => formatOfVariable_keeps

theorem handleOf_preserves : Preserves I (handleOf v) := .question fun _ _ _ h =>
  (takes_handleOf.mp h).2

theorem constantOf?_preserves : Preserves I (constantOf? v) :=
  .question fun _ _ _ => constantOf?_keeps

theorem bound?_preserves : Preserves I (bound? w) := .question fun _ _ _ h => (takes_bound?.mp h).2

theorem operandsOf_preserves {n : NodeId} : Preserves I (operandsOf n) :=
  .question fun _ _ _ h => (takes_operandsOf.mp h).2.2.2

end

end Codegen.Generating
