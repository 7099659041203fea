import Codegen.Symbol.Declare
import Mathlib

/-!
# Merging of contexts

A symbol table is closed if all that its contexts speak of exists. Merging one context of such a
table into another one succeeds and leaves a closed table.

* `SymbolTable.Within`: **a closed table, with the numbers of what it has**;
* `Scoping.Succeeds`: a change that succeeds on closed tables and leaves one;
* `Scoping.merge_succeeds`: **merging does**.
-/

namespace Codegen

/-! ## Closed tables -/

/-- All that a context speaks of has a number below a bound. -/
structure Context.Within (contexts types vars : Nat) (c : Context) : Prop where
  parent : ∀ q ∈ c.parent?, q < contexts
  children : ∀ q ∈ c.children, q < contexts
  types : ∀ x ∈ c.types, x.2 < types
  vars : ∀ x ∈ c.vars, x.2 < vars

/-- **All that the contexts of a table speak of exists.** -/
structure SymbolTable.Within (contexts types vars : Nat) (t : SymbolTable) : Prop where
  size : t.contexts.size = contexts
  sizeTypes : t.types.size = types
  sizeVars : t.vars.size = vars
  context : ∀ c ∈ t.contexts, c.Within contexts types vars
  type : ∀ i ∈ t.types, i.context < contexts

/-- A table that is closed. -/
def SymbolTable.Closed (t : SymbolTable) : Prop :=
  t.Within t.contexts.size t.types.size t.vars.size

/-! ### A test of symbol tables -/

/-- Does all that a context speaks of have a number below a bound? -/
def Context.isWithin (contexts types vars : Nat) (c : Context) : Bool :=
  c.parent?.all (· < contexts) && c.children.all (· < contexts) &&
    c.types.all (·.2 < types) && c.vars.all (·.2 < vars)

/-- Does all exist that the contexts of a table speak of? -/
def SymbolTable.isClosed (t : SymbolTable) : Bool :=
  (t.contexts.all (·.isWithin t.contexts.size t.types.size t.vars.size)) &&
    t.types.all (·.context < t.contexts.size)

theorem Context.within_of_isWithin {contexts types vars : Nat} {c : Context}
    (h : c.isWithin contexts types vars = true) : c.Within contexts types vars := by
  simp only [isWithin, Bool.and_eq_true, List.all_eq_true, decide_eq_true_eq] at h
  exact ⟨fun q hq => by simpa [Option.mem_def.mp hq] using h.1.1.1, h.1.1.2, h.1.2, h.2⟩

theorem SymbolTable.closed_of_isClosed {t : SymbolTable} (h : t.isClosed = true) : t.Closed := by
  rw [isClosed, Bool.and_eq_true, Array.all_eq_true_iff_forall_mem,
    Array.all_eq_true_iff_forall_mem] at h
  exact ⟨rfl, rfl, rfl, fun c hc => c.within_of_isWithin (h.1 c hc),
    fun i hi => by simpa using h.2 i hi⟩

namespace Scoping

variable {α β : Type} {contexts types vars : Nat} {f : Scoping α} {g : α → Scoping β}
variable {Q : α → Prop} {R : β → Prop} {c d : ContextId}

/-! ## Changes that succeed -/

/-- **The change succeeds on closed tables**, leaves one of the same size, and its value has a
property. -/
def Succeeds (contexts types vars : Nat) (f : Scoping α) (Q : α → Prop) : Prop :=
  ∀ t, t.Within contexts types vars → ∃ a t', f t = .ok a t' ∧ t'.Within contexts types vars ∧ Q a

namespace Succeeds

theorem pure {a : α} (ha : Q a) : Succeeds contexts types vars (pure a) Q := fun t ht =>
  ⟨a, t, rfl, ht, ha⟩

theorem bind (hf : Succeeds contexts types vars f Q)
    (hg : ∀ a, Q a → Succeeds contexts types vars (g a) R) :
    Succeeds contexts types vars (f >>= g) R := by
  intro t ht
  obtain ⟨a, t₁, h₁, ht₁, ha⟩ := hf t ht
  obtain ⟨b, t₂, h₂, ht₂, hb⟩ := hg a ha t₁ ht₁
  refine ⟨b, t₂, ?_, ht₂, hb⟩
  show EStateM.bind f g t = _
  rw [EStateM.bind, h₁]
  exact h₂

theorem forIn {l : List β} {body : β → PUnit → Scoping (ForInStep PUnit)}
    (h : ∀ x ∈ l, Succeeds contexts types vars (body x ⟨⟩) (· = .yield ⟨⟩)) :
    Succeeds contexts types vars (forIn l ⟨⟩ body) fun _ => True := by
  induction l with
  | nil => exact pure trivial
  | cons x l ih =>
    rw [List.forIn_cons]
    refine bind (h x List.mem_cons_self) fun a ha => ?_
    subst ha
    exact ih fun y hy => h y (List.mem_cons_of_mem _ hy)

theorem modify {k : SymbolTable → SymbolTable}
    (hk : ∀ t, t.Within contexts types vars → (k t).Within contexts types vars) :
    Succeeds contexts types vars (modify k) fun _ => True := fun t ht =>
  ⟨⟨⟩, k t, rfl, hk t ht, trivial⟩

theorem askContext (hc : c < contexts) :
    Succeeds contexts types vars (ask (·.context c)) (·.Within contexts types vars) := by
  intro t ht
  have hlt : c < t.contexts.size := by rw [ht.size]; exact hc
  refine ⟨t.contexts[c], t, ?_, ht, ht.context _ (Array.getElem_mem hlt)⟩
  rw [ask, SymbolTable.context, Array.getElem?_eq_getElem hlt]
  rfl

theorem askType {i : TypeId} (hi : i < types) :
    Succeeds contexts types vars (ask (·.typeInfo i)) (·.context < contexts) := by
  intro t ht
  have hlt : i < t.types.size := by rw [ht.sizeTypes]; exact hi
  refine ⟨t.types[i], t, ?_, ht, ht.type _ (Array.getElem_mem hlt)⟩
  rw [ask, SymbolTable.typeInfo, Array.getElem?_eq_getElem hlt]
  rfl

theorem askVariable {v : VariableId} (hv : v < vars) :
    Succeeds contexts types vars (ask (·.variableInfo v)) fun _ => True := by
  intro t ht
  have hlt : v < t.vars.size := by rw [ht.sizeVars]; exact hv
  refine ⟨t.vars[v], t, ?_, ht, trivial⟩
  rw [ask, SymbolTable.variableInfo, Array.getElem?_eq_getElem hlt]
  rfl

end Succeeds

theorem within_modify {t : SymbolTable} (ht : t.Within contexts types vars) {k : Context → Context}
    (hk : ∀ x : Context, x.Within contexts types vars → (k x).Within contexts types vars) :
    SymbolTable.Within contexts types vars { t with contexts := t.contexts.modify c k } := by
  refine ⟨by simp [ht.size], ht.sizeTypes, ht.sizeVars, fun x hx => ?_, ht.type⟩
  obtain ⟨i, hi, rfl⟩ := Array.mem_iff_getElem.mp hx
  rw [Array.getElem_modify]
  have hlt : i < t.contexts.size := by simpa using hi
  have hold := ht.context _ (Array.getElem_mem hlt)
  split
  · exact hk _ hold
  · exact hold

theorem modifyContext_succeeds (hc : c < contexts) {k : Context → Context}
    (hk : ∀ x : Context, x.Within contexts types vars → (k x).Within contexts types vars) :
    Succeeds contexts types vars (modifyContext c k) fun _ => True :=
  .bind (.askContext hc) fun _ _ => .modify fun _ ht => within_modify ht hk

theorem modifyVariable_succeeds {v : VariableId} (hv : v < vars)
    (k : VariableInfo → VariableInfo) :
    Succeeds contexts types vars (modifyVariable v k) fun _ => True :=
  .bind (.askVariable hv) fun _ _ => .modify fun _ ht =>
    ⟨ht.size, ht.sizeTypes, by simp [ht.sizeVars], ht.context, ht.type⟩

/-! ## The forest of contexts -/

theorem forgetMangles_succeeds (hc : c < contexts) :
    Succeeds contexts types vars (forgetMangles c) fun _ => True := by
  refine .bind (.askContext hc) fun _ _ => .modify fun t ht => ?_
  generalize subtree t c = cs
  -- the contexts change one after another
  induction cs generalizing t with
  | nil => exact ht
  | cons d cs ih =>
    exact ih _ (within_modify (c := d) (k := ({ · with mangle? := none })) ht fun x hx =>
      ⟨hx.parent, hx.children, hx.types, hx.vars⟩)

theorem adoptHints_succeeds (hc : c < contexts) :
    Succeeds contexts types vars (adoptHints c) fun _ => True := by
  refine .bind (.askContext hc) fun _ _ => .modify fun t ht => ?_
  refine ⟨ht.size, ht.sizeTypes, ?_, ht.context, ht.type⟩
  rw [← ht.sizeVars]
  dsimp only
  generalize List.flatMap _ (subtree t c) = vs
  generalize t.vars = infos
  induction vs generalizing infos with
  | nil => rfl
  | cons v vs ih => simpa using ih (infos.modify v _)

theorem detach_succeeds (hc : c < contexts) :
    Succeeds contexts types vars (detach c) fun _ => True := by
  refine .bind (.askContext hc) fun info hinfo => ?_
  have rest : Succeeds contexts types vars (do
      modifyContext c ({ · with parent? := none })
      forgetMangles c) fun _ => True :=
    .bind (modifyContext_succeeds hc fun x hx => ⟨by simp, hx.children, hx.types, hx.vars⟩)
      fun _ _ => forgetMangles_succeeds hc
  cases hp : info.parent? with
  | none => exact rest
  | some parent =>
    refine .bind (modifyContext_succeeds (hinfo.parent parent hp) fun x hx => ?_) fun _ _ => rest
    exact ⟨hx.parent, fun q hq => hx.children q (List.mem_filter.mp hq).1, hx.types, hx.vars⟩

/-! ## Merging -/

theorem adopt_lt {ns : Names Nat} {name : String} {n bound : Nat} (hns : ∀ x ∈ ns, x.2 < bound)
    (hn : n < bound) : ∀ x ∈ ns.adopt name n, x.2 < bound := by
  intro x hx
  rw [Names.adopt] at hx
  split at hx
  · exact hns x hx
  · rcases List.mem_append.mp hx with hx | hx
    · exact hns x hx
    · obtain rfl := List.mem_singleton.mp hx
      exact hn

/-- **Merging succeeds on a closed table and leaves one.** -/
theorem merge_succeeds (hc : c < contexts) (hd : d < contexts) :
    Succeeds contexts types vars (merge c d) fun _ => True := by
  refine .bind (.askContext hd) fun source hsource => ?_
  have adopts {x : ContextId} (hx : x < contexts) :
      Succeeds contexts types vars (modifyContext x ({ · with parent? := some c }))
        fun _ => True :=
    modifyContext_succeeds hx fun y hy => ⟨by simpa using hc, hy.children, hy.types, hy.vars⟩
  refine .bind (.forIn fun ⟨name, i⟩ hx => ?_) fun _ _ => ?_
  · have hi : i < types := hsource.types _ hx
    refine .bind (modifyContext_succeeds hc fun y hy =>
      ⟨hy.parent, hy.children, adopt_lt hy.types hi, hy.vars⟩) fun _ _ => ?_
    refine .bind (.askType hi) fun info hinfo => .bind (.askContext hinfo) fun members _ => ?_
    split
    · exact .bind (adopts hinfo) fun _ _ => .pure rfl
    · exact .pure rfl
  refine .bind (.forIn fun ⟨name, overloads⟩ _ => ?_) fun _ _ => ?_
  · refine .bind (.modify fun t ht => ?_) fun _ _ => .bind (modifyContext_succeeds hc
      fun y hy => ⟨hy.parent, hy.children, hy.types, hy.vars⟩) fun _ _ => .pure rfl
    exact ⟨ht.size, ht.sizeTypes, ht.sizeVars, ht.context, ht.type⟩
  refine .bind (.forIn fun ⟨name, v⟩ hx => ?_) fun _ _ => ?_
  · have hv : v < vars := hsource.vars _ hx
    exact .bind (modifyContext_succeeds hc fun y hy =>
      ⟨hy.parent, hy.children, hy.types, adopt_lt hy.vars hv⟩) fun _ _ =>
        .bind (modifyVariable_succeeds hv _) fun _ _ => .pure rfl
  refine .bind (.forIn fun ⟨name, l⟩ _ => ?_) fun _ _ => ?_
  · exact .bind (modifyContext_succeeds hc fun y hy =>
      ⟨hy.parent, hy.children, hy.types, hy.vars⟩) fun _ _ => .pure rfl
  refine .bind (.forIn fun child hx => ?_) fun _ _ => ?_
  · have hchild : child < contexts := hsource.children child hx
    refine .bind (adopts hchild) fun _ _ => .bind (modifyContext_succeeds hc fun y hy =>
      ⟨hy.parent, fun q hq => ?_, hy.types, hy.vars⟩) fun _ _ => .pure rfl
    split at hq
    · exact hy.children q hq
    · rcases List.mem_append.mp hq with hq | hq
      · exact hy.children q hq
      · obtain rfl := List.mem_singleton.mp hq
        exact hchild
  refine .bind (modifyContext_succeeds hd fun y hy => ⟨hy.parent, by simp, hy.types, hy.vars⟩)
    fun _ _ => .bind (forgetMangles_succeeds hc) fun _ _ =>
      .bind (adoptHints_succeeds hc) fun _ _ => detach_succeeds hd

end Scoping

end Codegen
