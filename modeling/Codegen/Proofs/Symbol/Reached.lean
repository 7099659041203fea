import Codegen.Proofs.Symbol.Linked

/-!
# Tables that changes lead to

A table is sound if it is closed and its links are a forest. No change makes a sound table unsound,
also where it is refused halfway, if nothing is put below or merged into what is inside it.

* `SymbolTable.Sound`, `Sound.extended`, `withVariable`, `withType`: sound tables that grow;
* `Scoping.Keeps`: **a change keeps what holds of tables**;
* `Scoping.link_sound`, `merge_sound`: so do linking and merging;
* `Change`, `Reached`: **the tables that sequences of changes lead to**;
* `SymbolTable.Merged`: what merging two contexts makes of a table;
* `Reached.forest_and_merged`: **contexts stay a forest, and merging loses nothing**.
-/

namespace Codegen

/-- **A sound table** is closed, and its links are a forest. -/
structure SymbolTable.Sound (t : SymbolTable) : Prop where
  closed : t.Closed
  forest : t.links.Forest

namespace SymbolTable

variable {t u : SymbolTable} {c p : ContextId} {x : Context}

/-! ## Closed tables -/

theorem Within.toClosed {contexts types vars : Nat} (h : t.Within contexts types vars) :
    t.Closed := by
  obtain ⟨rfl, rfl, rfl, hcontext, htype⟩ := h
  exact ⟨rfl, rfl, rfl, hcontext, htype⟩

theorem Closed.within (ht : t.Closed) (hx : t.contexts[c]? = some x) :
    x.Within t.contexts.size t.types.size t.vars.size :=
  ht.context x (Array.mem_of_getElem? hx)

theorem Closed.grow (ht : t.Closed) (hc : u.contexts = t.contexts)
    (hv : t.vars.size ≤ u.vars.size) (hi : t.types.size ≤ u.types.size)
    (htype : ∀ i ∈ u.types, i ∈ t.types ∨ i.context < t.contexts.size) : u.Closed where
  size := rfl
  sizeTypes := rfl
  sizeVars := rfl
  context x hx := by
    rw [hc] at hx ⊢
    have h := ht.context x hx
    exact ⟨h.parent, h.children, fun y hy => (h.types y hy).trans_le hi,
      fun y hy => (h.vars y hy).trans_le hv⟩
  type i h := by
    rw [hc]
    exact (htype i h).elim (ht.type i) id

theorem Closed.modify (ht : t.Closed) {k : Context → Context}
    (hk : ∀ x : Context, x.Within t.contexts.size t.types.size t.vars.size →
      (k x).Within t.contexts.size t.types.size t.vars.size) (c : ContextId) :
    Closed { t with contexts := t.contexts.modify c k } :=
  (Scoping.within_modify ht hk).toClosed

theorem put_lt {ns : Names Nat} {name : String} {n bound : Nat} (hns : ∀ x ∈ ns, x.2 < bound)
    (hn : n < bound) : ∀ x ∈ ns.put name n, x.2 < bound := by
  intro x hx
  rw [Names.put] at hx
  split at hx
  · obtain ⟨y, hy, rfl⟩ := List.mem_map.mp hx
    dsimp only
    split
    · exact hn
    · exact hns y hy
  · rcases List.mem_append.mp hx with hx | hx
    · exact hns x hx
    · obtain rfl := List.mem_singleton.mp hx
      exact hn

theorem Closed.extended (ht : t.Closed) (hp : p < t.contexts.size) (kind : ContextKind)
    (identity : String) : (t.extended kind p identity).Closed where
  size := rfl
  sizeTypes := rfl
  sizeVars := rfl
  context x hx := by
    have hsize : (t.extended kind p identity).contexts.size = t.contexts.size + 1 := by
      simp [SymbolTable.extended]
    rw [hsize]
    rcases Array.mem_push.mp hx with hx | rfl
    · obtain ⟨i, hi, rfl⟩ := Array.mem_iff_getElem.mp hx
      have hlt : i < t.contexts.size := by simpa using hi
      have hold := ht.context _ (Array.getElem_mem hlt)
      rw [Array.getElem_modify]
      split
      · refine ⟨fun q hq => Nat.lt_succ_of_lt (hold.parent q hq), fun q hq => ?_, hold.types,
          hold.vars⟩
        rcases List.mem_append.mp hq with hq | hq
        · exact Nat.lt_succ_of_lt (hold.children q hq)
        · exact List.mem_singleton.mp hq ▸ Nat.lt_succ_self _
      · exact ⟨fun q hq => Nat.lt_succ_of_lt (hold.parent q hq),
          fun q hq => Nat.lt_succ_of_lt (hold.children q hq), hold.types, hold.vars⟩
    · refine ⟨fun q hq => ?_, by simp [Context.start], by simp [Context.start],
        by simp [Context.start]⟩
      obtain rfl := Option.some.inj hq
      exact Nat.lt_succ_of_lt hp
  type i hi := by
    simp only [SymbolTable.extended, Array.size_push, Array.size_modify]
    exact Nat.lt_succ_of_lt (ht.type i hi)

/-- A context that a closed table does not have is nobody's child. -/
theorem Closed.not_child (ht : t.Closed) (hx : t.contexts[c]? = some x) :
    t.contexts.size ∉ x.children :=
  fun h => Nat.lt_irrefl _ ((ht.within hx).children _ h)

/-! ## A new context -/

theorem getElem?_extended (t : SymbolTable) (kind : ContextKind) (p : ContextId)
    (identity : String) (d : ContextId) : (t.extended kind p identity).contexts[d]? =
      if d = t.contexts.size then
        some { Context.start kind identity with parent? := some p }
      else if p = d then t.contexts[d]?.map fun k =>
        { k with created := k.created + 1, children := k.children ++ [t.contexts.size] }
      else t.contexts[d]? := by
  rw [SymbolTable.extended, Array.getElem?_push, Array.size_modify, Array.getElem?_modify]

theorem links_extended (ht : t.Closed) (hp : p < t.contexts.size) (kind : ContextKind)
    (identity : String) :
    (t.extended kind p identity).links = t.links.attach t.contexts.size p := by
  have hfilter (q : ContextId) :
      (t.links.children q).filter (· != t.contexts.size) = t.links.children q := by
    rw [links_children]
    cases hx : t.contexts[q]? with
    | none => rfl
    | some x =>
      refine List.filter_eq_self.mpr fun d hd => bne_iff_ne.mpr ?_
      rintro rfl
      exact ht.not_child hx hd
  refine Links.ext (funext fun d => ?_) (funext fun q => ?_)
  · rw [Links.parent?_attach, links_parent, getElem?_extended, links_parent]
    split
    · rfl
    · split
      · cases t.contexts[d]? <;> rfl
      · rfl
  · rw [Links.children_attach, hfilter, links_children, getElem?_extended, links_children]
    by_cases hq : q = t.contexts.size
    · simp [hq, hp.ne', Context.start]
    · by_cases hpq : p = q
      · subst hpq
        simp [hq, Array.getElem?_eq_getElem hp]
      · simp [hq, hpq, Ne.symm hpq]

/-- **A new context keeps a table sound.** -/
theorem Sound.extended (h : t.Sound) (hx : t.contexts[p]? = some x) (kind : ContextKind)
    (identity : String) : (t.extended kind p identity).Sound := by
  have hp : p < t.contexts.size := (Array.getElem?_eq_some_iff.mp hx).1
  refine ⟨h.closed.extended hp kind identity, ?_⟩
  rw [links_extended h.closed hp]
  exact h.forest.attach fun hin => Nat.lt_irrefl _ (lt_size_of_inside h.forest hp hin)

theorem not_inside (hf : t.links.Forest) (h : t.isInside c p = .ok false) :
    c < t.contexts.size ∧ ¬ t.links.Inside c p := by
  have hc : c < t.contexts.size := by
    by_contra hc
    rw [isInside, enclosing, context, Array.getElem?_eq_none (Nat.le_of_not_lt hc)] at h
    split at h
    · cases h
    · cases h
  exact ⟨hc, fun hin => Bool.false_ne_true ((isInside_eq hf hc h).mpr hin)⟩

/-- A context of a sound table declares something else that exists. -/
theorem Sound.modify (h : t.Sound) {k : Context → Context} (hp : ∀ x, (k x).parent? = x.parent?)
    (hc : ∀ x, (k x).children = x.children)
    (hk : ∀ x : Context, x.Within t.contexts.size t.types.size t.vars.size →
      (∀ y ∈ (k x).types, y.2 < t.types.size) ∧ ∀ y ∈ (k x).vars, y.2 < t.vars.size)
    (c : ContextId) : Sound { t with contexts := t.contexts.modify c k } where
  closed := h.closed.modify (fun x hx => ⟨by rw [hp]; exact hx.parent,
    by rw [hc]; exact hx.children, (hk x hx).1, (hk x hx).2⟩) c
  forest := by
    rw [links_modify hp hc]
    exact h.forest

theorem Sound.withVariable (h : t.Sound) (c : ContextId) (name : String) (type? : Option TypeId)
    (category : VariableCategory) : (t.withVariable c name type? category).Sound := by
  have hgrown : Sound { t with vars := t.vars.push ⟨name, type?, none, category, c⟩ } :=
    ⟨h.closed.grow rfl (by simp) le_rfl fun _ hi => .inl hi, h.forest⟩
  exact hgrown.modify (k := fun x => { x with vars := x.vars.put name t.vars.size })
    (fun _ => rfl) (fun _ => rfl) (fun x hx => ⟨hx.types, put_lt hx.vars (by simp)⟩) c

theorem Sound.withType (h : t.Sound) (hx : t.contexts[c]? = some x) (name identity : String) :
    (t.withType c name identity).Sound := by
  have hnew := h.extended hx (.ofType t.types.size) identity
  have hgrown : Sound { t.extended (.ofType t.types.size) c identity with
      types := t.types.push ⟨name, .user, t.contexts.size, []⟩ } := by
    refine ⟨hnew.closed.grow rfl le_rfl (by simp [SymbolTable.extended]) fun i hi => ?_,
      hnew.forest⟩
    rcases Array.mem_push.mp hi with hi | rfl
    · exact .inl hi
    · exact .inr (by simp [SymbolTable.extended])
  exact hgrown.modify (k := fun x => { x with types := x.types.put name t.types.size })
    (fun _ => rfl) (fun _ => rfl) (fun x hx => ⟨put_lt hx.types (by simp), hx.vars⟩) c

end SymbolTable

namespace Scoping

variable {α β γ : Type} {f : Scoping α} {g : α → Scoping β} {t : SymbolTable}
variable {c d p : ContextId} {Q R : α → SymbolTable → Prop} {E E' : SymbolTable → Prop}

open SymbolTable (Sound)

/-! ## Changes that keep what holds of tables -/

/-- **A change keeps what holds of tables**, also where it is refused. -/
def Keeps (P : SymbolTable → Prop) (f : Scoping α) : Prop := ∀ t, P t → Ends f t (fun _ => P) P

namespace Keeps

variable {P : SymbolTable → Prop}

theorem pure (a : α) : Keeps P (Pure.pure a) := fun _ ht => .pure ht

theorem bind (hf : Keeps P f) (hg : ∀ a, Keeps P (g a)) : Keeps P (f >>= g) := fun t ht =>
  .bind (hf t ht) fun a u hu => hg a u hu

theorem discard (hf : Keeps P f) : Keeps P (discard f) := .bind hf fun _ => .pure ()

theorem refuse_bind (kind : SymbolKind) (name : String) {g : β → Scoping α} :
    Keeps P (Scoping.refuse kind name >>= g) := fun _ ht =>
  .bind (Q := fun _ _ => False) (.refuse ht) fun _ _ h => h.elim

theorem get : Keeps P get := fun _ ht => .of_ok rfl ht

theorem expect {o : SymbolTable → Option α} :
    Keeps P (Scoping.ask fun t => Fault.expect .missing (o t)) :=
  fun _ ht => .expect fun _ _ => ht

theorem modify {k : SymbolTable → SymbolTable} (hk : ∀ t, P t → P (k t)) :
    Keeps P (modify k) := fun t ht => .modify (hk t ht)

theorem mapM {l : List γ} {k : γ → Scoping β} (hk : ∀ z, Keeps P (k z)) : Keeps P (l.mapM k) :=
  fun _ ht => .mapM ht fun z u _ hu => hk z u hu

theorem forIn {l : List γ} {body : γ → PUnit → Scoping (ForInStep PUnit)}
    (hb : ∀ z, Keeps P (body z ⟨⟩)) : Keeps P (ForIn.forIn l ⟨⟩ body) := by
  induction l with
  | nil => exact pure _
  | cons z l ih =>
    rw [List.forIn_cons]
    refine bind (hb z) fun s => ?_
    cases s with
    | done => exact pure _
    | yield => exact ih

end Keeps

theorem declare_keeps {k : Context → Context} (hp : ∀ x, (k x).parent? = x.parent?)
    (hc : ∀ x, (k x).children = x.children) (ht : ∀ x, (k x).types = x.types)
    (hv : ∀ x, (k x).vars = x.vars) : Keeps Sound (modifyContext c k) := fun _ h =>
  .modifyContext fun _ _ =>
    h.modify hp hc (fun x hx => ⟨ht x ▸ hx.types, hv x ▸ hx.vars⟩) c

theorem Ends.asking {k : Context → Scoping α}
    (h : ∀ x, t.contexts[c]? = some x → Ends (Scoping.ask (·.context c) >>= k) t Q E) :
    Ends (Scoping.ask (·.context c) >>= k) t Q E := .withContext fun x hx => by
  have := h x hx
  rwa [Ends, bind_of_ok (askContext_eq hx)] at this

theorem createContext_keeps (kind : ContextKind) (p : ContextId) :
    Keeps Sound (createContext kind p) := fun _ ht =>
  .asking fun _ hx => .of_ok (createContext_eq kind hx (ht.closed.not_child hx))
    (ht.extended hx kind _)

theorem declareVariable_keeps (c : ContextId) (name : String) (type? : Option TypeId)
    (category : VariableCategory) : Keeps Sound (declareVariable c name type? category) :=
  fun _ ht => declareVariable_ends (fun _ _ _ => ht.withVariable c name type? category) ht

theorem declareType_keeps (c : ContextId) (name : String) : Keeps Sound (declareType c name) :=
  fun _ ht => declareType_ends (fun _ hx => ht.closed.not_child hx)
    (fun _ identity hx _ => ht.withType hx name identity) ht

theorem declareMember_keeps (i : TypeId) (name : String) (type? : Option TypeId) :
    Keeps Sound (declareMember i name type?) :=
  .bind .expect fun _ => .bind .expect fun _ => declareVariable_keeps _ name type? _

theorem addSupertype_keeps (i supertype : TypeId) : Keeps Sound (addSupertype i supertype) := by
  intro t ht
  refine .modifyType fun x hx => ⟨ht.closed.grow rfl le_rfl (by simp) fun y hy => ?_, ht.forest⟩
  obtain ⟨j, hj, rfl⟩ := Array.mem_iff_getElem.mp hy
  have hold := ht.closed.type _ (Array.getElem_mem (show j < t.types.size by simpa using hj))
  rw [Array.getElem_modify]
  right
  split
  · exact hold
  · exact hold

theorem declareFunction_keeps (c : ContextId) (name : String)
    (parameters : List (String × Option TypeId)) (returnType? : Option TypeId) :
    Keeps Sound (declareFunction c name parameters returnType?) := by
  refine .bind .expect fun x => ?_
  refine .bind (.mapM fun f => .bind .expect fun _ => .mapM fun v => .bind .expect fun _ =>
    .pure _) fun signatures => ?_
  dsimp only
  split
  · exact .refuse_bind _ _
  · refine .bind .get fun u => .bind (createContext_keeps _ c) fun inner => ?_
    refine .bind (.mapM fun _ => declareVariable_keeps _ _ _ _) fun vars => ?_
    refine .bind (.modify fun t ht => ⟨ht.closed.grow rfl le_rfl le_rfl fun _ hi => .inl hi,
      ht.forest⟩) fun _ => .bind ?_ fun _ => .pure _
    exact declare_keeps (fun _ => rfl) (fun _ => rfl) (fun _ => rfl) fun _ => rfl

theorem declareLabel_keeps (c : ContextId) (name : String) :
    Keeps Sound (declareLabel c name) := by
  refine .bind .expect fun x => ?_
  dsimp only
  split
  · exact .refuse_bind _ _
  · refine .bind .get fun u => .bind (.modify fun t ht => ⟨ht.closed.grow rfl le_rfl le_rfl
      fun _ hi => .inl hi, ht.forest⟩) fun _ => .bind ?_ fun _ => .pure _
    exact declare_keeps (fun _ => rfl) (fun _ => rfl) (fun _ => rfl) fun _ => rfl

theorem Succeeds.ends {contexts types vars : Nat} {Q : α → Prop}
    (h : Succeeds contexts types vars f Q) (ht : t.Within contexts types vars) :
    Ends f t (fun _ u => u.Closed) E := by
  obtain ⟨a, u, hu, hw, -⟩ := h t ht
  exact .of_ok hu hw.toClosed

theorem Ends.sound {l : Links} (hc : Ends f t (fun _ u => u.Closed) Sound)
    (hl : Ends f t (fun _ u => u.links = l) Sound) (h : l.Forest) :
    Ends f t (fun _ => Sound) Sound :=
  ⟨fun a u hu => ⟨hc.1 a u hu, (hl.1 a u hu).symm ▸ h⟩, hc.2⟩

theorem detach_keeps (c : ContextId) : Keeps Sound (detach c) := fun _ ht => .asking fun _ hx =>
  have hc := (Array.getElem?_eq_some_iff.mp hx).1
  .sound ((detach_succeeds hc).ends ht.closed)
    ((detach_ends (ht.forest.isChildOf c)).mono fun _ _ h => h.links) (ht.forest.detach c)

theorem adoptHints_keeps (c : ContextId) : Keeps Sound (adoptHints c) := fun _ ht =>
  .asking fun _ hx =>
  have hc := (Array.getElem?_eq_some_iff.mp hx).1
  .sound ((adoptHints_succeeds hc).ends ht.closed) (adoptHints_ends.mono fun _ _ h => h.links)
    ht.forest

theorem link_succeeds {contexts types vars : Nat} (hc : c < contexts) (hp : p < contexts) :
    Succeeds contexts types vars (link c p) fun _ => True := by
  refine .bind (.askContext hc) fun info hinfo => ?_
  have rest : Succeeds contexts types vars (do
      modifyContext c ({ · with parent? := some p })
      modifyContext p fun k =>
        { k with children := if k.children.contains c then k.children else k.children ++ [c] }
      forgetMangles c
      adoptHints c) fun _ => True := by
    refine .bind (modifyContext_succeeds hc fun x hx =>
      ⟨by simpa using hp, hx.children, hx.types, hx.vars⟩) fun _ _ =>
        .bind (modifyContext_succeeds hp fun x hx => ⟨hx.parent, fun q hq => ?_, hx.types, hx.vars⟩)
          fun _ _ => .bind (forgetMangles_succeeds hc) fun _ _ => adoptHints_succeeds hc
    split at hq
    · exact hx.children q hq
    · exact (List.mem_append.mp hq).elim (hx.children q) fun h => List.mem_singleton.mp h ▸ hc
  cases hq : info.parent? with
  | none => exact rest
  | some q =>
    refine .bind (modifyContext_succeeds (hinfo.parent q hq) fun x hx => ?_) fun _ _ => rest
    exact ⟨hx.parent, fun d hd => hx.children d (List.mem_filter.mp hd).1, hx.types, hx.vars⟩

theorem link_sound (ht : t.Sound) (h : t.isInside p c = .ok false) :
    Ends (link c p) t (fun _ => Sound) Sound := .asking fun _ hx =>
  have hc := (Array.getElem?_eq_some_iff.mp hx).1
  have ⟨hp, hin⟩ := SymbolTable.not_inside ht.forest h
  .sound ((link_succeeds hc hp).ends ht.closed)
    ((link_ends (ht.forest.isChildOf c)).mono fun _ _ h => h.links) (ht.forest.attach hin)

theorem merge_sound (ht : t.Sound) (h : t.isInside c d = .ok false) :
    Ends (merge c d) t (fun _ => Sound) Sound := .asking fun _ hx =>
  have hd := (Array.getElem?_eq_some_iff.mp hx).1
  have ⟨hc, hin⟩ := SymbolTable.not_inside ht.forest h
  .sound ((merge_succeeds hc hd).ends ht.closed)
    ((merge_ends ht.forest hin).mono fun _ _ h => h.1) (ht.forest.dissolve hin)

end Scoping

/-! ## Changes -/

open Scoping

/-- A change of the symbol table. -/
inductive Change
  | newContext (kind : ContextKind) (parent : ContextId)
  | newType (c : ContextId) (name : String)
  | supertype (i supertype : TypeId)
  | newVariable (c : ContextId) (name : String) (type? : Option TypeId)
      (category : VariableCategory)
  | newMember (i : TypeId) (name : String) (type? : Option TypeId)
  | newFunction (c : ContextId) (name : String) (parameters : List (String × Option TypeId))
      (returnType? : Option TypeId)
  | newLabel (c : ContextId) (name : String)
  /-- A variable hints at a type. -/
  | hint (v : VariableId) (type? : Option TypeId)
  | link (child parent : ContextId)
  | merge (c other : ContextId)
  | adoptHints (c : ContextId)
  | detach (c : ContextId)

namespace Change

/-- Makes the change. -/
def run : Change → Scoping Unit
  | newContext kind p => discard <| createContext kind p
  | newType c name => discard <| declareType c name
  | supertype i s => addSupertype i s
  | newVariable c name type? category => discard <| declareVariable c name type? category
  | newMember i name type? => discard <| declareMember i name type?
  | newFunction c name parameters returnType? =>
    discard <| declareFunction c name parameters returnType?
  | newLabel c name => discard <| declareLabel c name
  | hint v type? => modifyVariable v ({ · with hint? := type? })
  | link child parent => Scoping.link child parent
  | merge c other => Scoping.merge c other
  | adoptHints c => Scoping.adoptHints c
  | detach c => Scoping.detach c

/-- Nothing is put below what is inside it, and nothing is merged into what is inside it. -/
def Fits (t : SymbolTable) : Change → Prop
  | link child parent => t.isInside parent child = .ok false
  | merge c other => t.isInside c other = .ok false
  | _ => True

instance (t : SymbolTable) : (ch : Change) → Decidable (ch.Fits t)
  | link child parent => inferInstanceAs (Decidable (t.isInside parent child = .ok false))
  | merge c other => inferInstanceAs (Decidable (t.isInside c other = .ok false))
  | newContext .. | newType .. | supertype .. | newVariable .. | newMember .. | newFunction ..
  | newLabel .. | hint .. | adoptHints .. | detach .. => .isTrue trivial

/-- **A change that fits keeps a table sound.** -/
theorem run_sound {ch : Change} {t : SymbolTable} (h : ch.Fits t) (ht : t.Sound) :
    Ends ch.run t (fun _ => SymbolTable.Sound) SymbolTable.Sound := by
  cases ch with
  | newContext kind p => exact (createContext_keeps kind p).discard t ht
  | newType c name => exact (declareType_keeps c name).discard t ht
  | supertype i s => exact addSupertype_keeps i s t ht
  | newVariable c name type? category =>
    exact (declareVariable_keeps c name type? category).discard t ht
  | newMember i name type? => exact (declareMember_keeps i name type?).discard t ht
  | newFunction c name parameters returnType? =>
    exact (declareFunction_keeps c name parameters returnType?).discard t ht
  | newLabel c name => exact (declareLabel_keeps c name).discard t ht
  | hint v type? =>
    exact .modifyVariable ⟨ht.closed.grow rfl (by simp) le_rfl fun _ hi => .inl hi, ht.forest⟩
  | link child parent => exact link_sound ht h
  | merge c other => exact merge_sound ht h
  | adoptHints c => exact adoptHints_keeps c t ht
  | detach c => exact detach_keeps c t ht

end Change

/-- **The tables that changes lead to**, made one after another. A change may be refused. -/
inductive Reached : SymbolTable → Prop
  | start : Reached .start
  | done {t u : SymbolTable} {ch : Change} (h : Reached t) (hf : ch.Fits t)
    (hr : ch.run t = .ok () u) : Reached u
  | refused {t u : SymbolTable} {ch : Change} {e : CompileError} (h : Reached t) (hf : ch.Fits t)
    (hr : ch.run t = .error (.report e) u) : Reached u

/-- The table after some changes, if all of them fit and are made. -/
def Change.after? (t : SymbolTable) : List Change → Option SymbolTable
  | [] => some t
  | ch :: changes =>
    if ch.Fits t then
      match ch.run t with
      | .ok () u => after? u changes
      | .error .. => none
    else none

theorem Reached.after {t u : SymbolTable} {changes : List Change} (h : Reached t)
    (hu : Change.after? t changes = some u) : Reached u := by
  induction changes generalizing t with
  | nil =>
    cases hu
    exact h
  | cons ch changes ih =>
    rw [Change.after?] at hu
    split at hu
    next hf =>
      split at hu
      next t' hr => exact ih (h.done hf hr) hu
      next => cases hu
    next => cases hu

theorem SymbolTable.start_sound : SymbolTable.start.Sound where
  closed := closed_of_isClosed (by decide +kernel)
  forest := by
    have hparent (c : ContextId) : SymbolTable.start.links.parent? c = none := by
      cases c <;> rfl
    have hchildren (c : ContextId) : SymbolTable.start.links.children c = [] := by
      cases c <;> rfl
    refine ⟨fun c p => by simp [hparent, hchildren], fun p => by simp [hchildren], fun c hc => ?_⟩
    obtain ⟨d, hd, -⟩ := Relation.TransGen.head'_iff.mp hc
    rw [Links.Under, hparent] at hd
    cases hd

theorem Reached.sound {t : SymbolTable} (h : Reached t) : t.Sound := by
  induction h with
  | start => exact SymbolTable.start_sound
  | done _ hf hr ih => exact (Change.run_sound hf ih).1 _ _ hr
  | refused _ hf hr ih => exact (Change.run_sound hf ih).2 _ _ hr

/-- **What merging one context into another one makes of a table.** -/
structure SymbolTable.Merged (t : SymbolTable) (c other : ContextId) (u : SymbolTable) : Prop where
  /-- The children follow. -/
  children : ∀ d ∈ t.links.children other, d ∈ u.links.children c
  parent_other : u.links.parent? other = none
  children_other : u.links.children other = []
  /-- All others stay where they are. -/
  parent : ∀ d, d ≠ other → d ∉ t.links.children other → u.links.parent? d = t.links.parent? d
  types : ∀ name, (u.declarations c).types.lookup name =
    ((t.declarations c).types.lookup name).or ((t.declarations other).types.lookup name)
  functions : ∀ name, (u.declarations c).functions.lookup name =
    ((t.declarations c).functions.lookup name).or ((t.declarations other).functions.lookup name)
  vars : ∀ name, (u.declarations c).vars.lookup name =
    ((t.declarations c).vars.lookup name).or ((t.declarations other).vars.lookup name)
  labels : ∀ name, (u.declarations c).labels.lookup name =
    ((t.declarations c).labels.lookup name).or ((t.declarations other).labels.lookup name)

theorem SymbolTable.Sound.merged {t : SymbolTable} (h : t.Sound) {c other : ContextId}
    (ho : other < t.contexts.size) (hin : t.isInside c other = .ok false) :
    ∃ u, Scoping.merge c other t = .ok () u ∧ t.Merged c other u := by
  obtain ⟨hc, hnot⟩ := not_inside h.forest hin
  have hne : c ≠ other := by
    rintro rfl
    exact hnot .refl
  obtain ⟨_, u, hu, -, -⟩ := merge_succeeds hc ho t h.closed
  obtain ⟨hl, hd⟩ := (merge_ends (E := fun _ => True) h.forest hnot).1 _ u hu
  refine ⟨u, hu, ?_⟩
  have hunder (d : ContextId) (hd : d ∉ t.links.children other) :
      t.links.parent? d ≠ some other := fun hp => hd ((h.forest.mem_children d other).mpr hp)
  constructor
  · intro d hd
    have hdo : d ≠ other := h.forest.ne_of_under ((h.forest.mem_children d other).mp hd)
    simp [hl, hne, hd, hdo]
  · simp [hl]
  · simp [hl]
  · intro d hdo hd
    simp [hl, hdo, hunder d hd]
  all_goals
    intro name
    rw [hd]
    exact Names.lookup_adoptAll _ _ name

/-- **Contexts stay a forest, and merging loses nothing.** In every table that changes lead to,
parents and children agree, no child is listed twice, and no context is below itself; so the way up
from a context ends. A context is merged into another one that is not inside it without a failure,
and all that was declared in either is declared in the latter. -/
theorem Reached.forest_and_merged {t : SymbolTable} (h : Reached t) :
    t.links.Forest ∧
      (∀ c < t.contexts.size, ∃ cs, t.enclosing c = .ok cs ∧ t.links.Ascent c cs) ∧
      ∀ c other, other < t.contexts.size → t.isInside c other = .ok false →
        ∃ u, Scoping.merge c other t = .ok () u ∧ t.Merged c other u :=
  ⟨h.sound.forest, fun _ hc => SymbolTable.enclosing_ascent h.sound.forest hc,
    fun _ _ ho hin => h.sound.merged ho hin⟩

/-- Two scopes, of which the second one has a type, a scope, and a name that both have. -/
def twoScopes : List Change :=
  [.newContext .scope 0, .newContext .scope 0, .newContext .scope 2, .newType 2 "T",
    .newVariable 1 "x" none .inner, .newVariable 2 "x" (some 6) .inner,
    .newVariable 2 "y" (some 6) .inner]

theorem merge_twoScopes : ∃ t, Change.after? .start twoScopes = some t ∧ t.links.Forest ∧
    ∃ u, Scoping.merge 1 2 t = .ok () u ∧ t.Merged 1 2 u := by
  have hdone : (Change.after? .start twoScopes).any fun t =>
      decide (2 < t.contexts.size ∧ t.isInside 1 2 = .ok false) := by decide +kernel
  obtain ⟨t, ht, hfits⟩ := (Option.any_eq_true _ _).mp hdone
  obtain ⟨hlt, hin⟩ := of_decide_eq_true hfits
  obtain ⟨hforest, -, hmerge⟩ := (Reached.start.after ht).forest_and_merged
  exact ⟨t, ht, hforest, hmerge 1 2 hlt hin⟩

end Codegen
