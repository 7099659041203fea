import Mathlib.Order.Defs.Unbundled
import Codegen.Symbol.Declare

/-!
# Types of variables in merged contexts

Where contexts are merged, a variable without a type takes the one that it hints at. No other type
changes.

* `Along`: **runs that take a state to a related one**, with the building blocks of runs;
* `VariableInfo.Hinted`: a variable that may have taken the type that it hints at;
* `SymbolTable.Hinted`: tables whose variables may have done so;
* `Scoping.merge_hinted`: **merging changes no other types**.
-/

namespace Codegen

/-! ## Related states -/

/-- **A run that succeeds takes a state to a related one.** -/
def Along {ε σ α : Type} (R : σ → σ → Prop) (f : EStateM ε σ α) : Prop :=
  ∀ s a s', f s = .ok a s' → R s s'

namespace Along

variable {ε σ α β γ : Type} {R : σ → σ → Prop} [IsPreorder σ R] {f : EStateM ε σ α}
variable {g : α → EStateM ε σ β}

theorem pure (a : α) : Along R (Pure.pure a : EStateM ε σ α) := by
  intro s b s' hs
  cases hs
  exact refl_of R s

theorem bind (hf : Along R f) (hg : ∀ a, Along R (g a)) : Along R (f >>= g) := by
  intro s b s'' hs
  change EStateM.bind f g s = _ at hs
  rw [EStateM.bind] at hs
  cases h : f s with
  | ok a s' =>
    rw [h] at hs
    exact trans_of R (hf s a s' h) (hg a s' b s'' hs)
  | error e s' =>
    rw [h] at hs
    cases hs

theorem get : Along R (MonadState.get : EStateM ε σ σ) := by
  intro s a s' hs
  cases hs
  exact refl_of R s

omit [IsPreorder σ R] in
theorem modify {k : σ → σ} (hk : ∀ s, R s (k s)) :
    Along R (modify k : EStateM ε σ PUnit) := by
  intro s a s' hs
  cases hs
  exact hk s

theorem forIn {l : List γ} {body : γ → PUnit → EStateM ε σ (ForInStep PUnit)}
    (h : ∀ x, Along R (body x ⟨⟩)) : Along R (ForIn.forIn l ⟨⟩ body) := by
  induction l with
  | nil => exact pure _
  | cons x l ih =>
    rw [List.forIn_cons]
    refine bind (h x) fun s => ?_
    cases s with
    | done => exact pure _
    | yield => exact ih

end Along

/-! ## Variables -/

/-- **A variable that may have taken the type that it hints at.** -/
structure VariableInfo.Hinted (x y : VariableInfo) : Prop where
  hint : y.hint? = x.hint?
  type : y.type? = x.type? ∨ x.type? = none ∧ y.type? = x.hint?

namespace VariableInfo.Hinted

variable {x y z : VariableInfo}

theorem refl (x : VariableInfo) : x.Hinted x := ⟨rfl, .inl rfl⟩

theorem trans (h : x.Hinted y) (h' : y.Hinted z) : x.Hinted z := by
  refine ⟨h'.hint.trans h.hint, ?_⟩
  rcases h.type with hy | ⟨hx, hy⟩
  · rw [← hy, ← h.hint]
    exact h'.type
  · refine .inr ⟨hx, ?_⟩
    rcases h'.type with hz | ⟨-, hz⟩
    · rw [hz, hy]
    · rw [hz, h.hint]

theorem isUnresolved_of (h : x.Hinted y) (hy : y.isUnresolved = true) : x.isUnresolved = true := by
  rcases h.type with ht | ⟨hx, -⟩
  · rwa [isUnresolved, ← ht]
  · simp [isUnresolved, hx]

theorem isUnresolved (h : x.Hinted y) (hx : x.isUnresolved = true) (hn : x.hint? = none) :
    y.isUnresolved = true := by
  rcases h.type with ht | ⟨-, ht⟩
  · rwa [VariableInfo.isUnresolved, ht]
  · simp [VariableInfo.isUnresolved, ht, hn]

end VariableInfo.Hinted

/-- **Tables whose variables may have taken the types that they hint at.** -/
def SymbolTable.Hinted (t u : SymbolTable) : Prop :=
  ∀ v : VariableId, Option.Rel VariableInfo.Hinted t.vars[v]? u.vars[v]?

namespace SymbolTable.Hinted

variable {t u w : SymbolTable}

theorem of_vars_eq (h : u.vars = t.vars) : t.Hinted u := fun v => by
  rw [h]
  cases t.vars[v]? with
  | none => exact .none
  | some x => exact .some (.refl x)

theorem trans (h : t.Hinted u) (h' : u.Hinted w) : t.Hinted w := fun v => by
  have hv := h v
  have hv' := h' v
  generalize t.vars[v]? = x, u.vars[v]? = y, w.vars[v]? = z at hv hv' ⊢
  cases hv with
  | none => exact hv'
  | some hxy =>
    cases hv' with
    | some hyz => exact .some (hxy.trans hyz)

instance : IsPreorder SymbolTable SymbolTable.Hinted where
  refl _ := .of_vars_eq rfl
  trans _ _ _ := .trans

theorem changed (v : VariableId) {k : VariableInfo → VariableInfo}
    (hk : ∀ x : VariableInfo, x.Hinted (k x)) :
    t.Hinted { t with vars := t.vars.modify v k } := fun w => by
  rw [Array.getElem?_modify]
  cases t.vars[w]? with
  | none => simp
  | some x =>
    split
    · exact .some (hk x)
    · exact .some (.refl x)

theorem changedAll (vs : List VariableId) {k : VariableInfo → VariableInfo}
    (hk : ∀ x : VariableInfo, x.Hinted (k x)) :
    t.Hinted { t with vars := vs.foldl (fun xs v => xs.modify v k) t.vars } := by
  induction vs generalizing t with
  | nil => exact .of_vars_eq rfl
  | cons v vs ih => exact (changed v hk).trans (ih (t := { t with vars := t.vars.modify v k }))

theorem isUnresolved_of {v : VariableId} (h : t.Hinted u)
    (hv : u.vars[v]?.any (·.isUnresolved) = true) : t.vars[v]?.any (·.isUnresolved) = true := by
  have hr := h v
  generalize t.vars[v]? = x, u.vars[v]? = y at hr hv ⊢
  cases hr with
  | none => exact hv
  | some hxy => exact hxy.isUnresolved_of hv

theorem isUnresolved {v : VariableId} (h : t.Hinted u)
    (hv : t.vars[v]?.any (·.isUnresolved) = true)
    (hn : t.vars[v]?.all (·.hint?.isNone) = true) : u.vars[v]?.any (·.isUnresolved) = true := by
  have hr := h v
  generalize t.vars[v]? = x, u.vars[v]? = y at hr hv hn ⊢
  cases hr with
  | none => exact hv
  | some hxy => exact hxy.isUnresolved hv (by simpa using hn)

end SymbolTable.Hinted

/-! ## Merging -/

namespace Scoping

open SymbolTable (Hinted)

variable {α : Type} {c d : ContextId}

theorem ask_hinted {q : SymbolTable → Except Fault α} : Along Hinted (ask q) := by
  intro t a u h
  rw [ask] at h
  split at h <;> cases h
  exact refl_of Hinted t

theorem modifyContext_hinted {k : Context → Context} : Along Hinted (modifyContext c k) :=
  .bind ask_hinted fun _ => .modify fun _ => .of_vars_eq rfl

theorem modifyVariable_hinted {v : VariableId} {k : VariableInfo → VariableInfo}
    (hk : ∀ x : VariableInfo, x.Hinted (k x)) : Along Hinted (modifyVariable v k) :=
  .bind ask_hinted fun _ => .modify fun _ => .changed v hk

theorem forgetMangles_hinted : Along Hinted (forgetMangles c) :=
  .bind ask_hinted fun _ => .modify fun _ => .of_vars_eq rfl

theorem adoptHints_hinted : Along Hinted (adoptHints c) := by
  refine .bind ask_hinted fun _ => .modify fun t => .changedAll _ fun x => ⟨rfl, ?_⟩
  cases h : x.type? <;> simp

theorem detach_hinted : Along Hinted (detach c) := by
  refine .bind ask_hinted fun info => ?_
  cases info.parent? with
  | none => exact .bind modifyContext_hinted fun _ => forgetMangles_hinted
  | some p =>
    exact .bind modifyContext_hinted fun _ => .bind modifyContext_hinted fun _ =>
      forgetMangles_hinted

/-- **Merging gives types to variables that hint at them**, and changes no others. -/
theorem merge_hinted : Along Hinted (merge c d) := by
  refine .bind ask_hinted fun source => ?_
  refine .bind (.forIn fun ⟨name, i⟩ => ?_) fun _ => ?_
  · refine .bind modifyContext_hinted fun _ => .bind ask_hinted fun info => .bind ask_hinted
      fun members => ?_
    split
    · exact .bind modifyContext_hinted fun _ => .pure _
    · exact .pure _
  refine .bind (.forIn fun ⟨name, overloads⟩ => ?_) fun _ => ?_
  · exact .bind (.modify fun _ => .of_vars_eq rfl) fun _ => .bind modifyContext_hinted
      fun _ => .pure _
  refine .bind (.forIn fun ⟨name, v⟩ => ?_) fun _ => ?_
  · exact .bind modifyContext_hinted fun _ =>
      .bind (modifyVariable_hinted fun _ => ⟨rfl, .inl rfl⟩) fun _ => .pure _
  refine .bind (.forIn fun ⟨name, l⟩ => ?_) fun _ => ?_
  · exact .bind modifyContext_hinted fun _ => .pure _
  refine .bind (.forIn fun child => ?_) fun _ => ?_
  · exact .bind modifyContext_hinted fun _ => .bind modifyContext_hinted fun _ => .pure _
  exact .bind modifyContext_hinted fun _ => .bind forgetMangles_hinted fun _ =>
    .bind adoptHints_hinted fun _ => detach_hinted

end Scoping

end Codegen
