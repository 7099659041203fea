import Codegen.Proofs.Symbol.Merge

/-!
# What changes of the symbol table do

A change of the table ends with a value, with a report, or with a crash. `Scoping.Ends` tells of the
table behind it in the first two cases; proofs follow the steps of a change one by one. What the
smaller changes do is said by equations.

* `Scoping.Ends`, `Ends.bind`, `Ends.step`, ...: **the table behind a change**;
* `Scoping.createContext_eq`: a new context is the last child of its parent, and nothing else
  changes;
* `Scoping.declareVariable_ends`, `declareType_ends`, `declareFunction_ends`: **what declarations
  do**.
-/

namespace Codegen

/-- The table with a new context below another one. -/
def SymbolTable.extended (t : SymbolTable) (kind : ContextKind) (p : ContextId)
    (identity : String) : SymbolTable :=
  { t with
    contexts := (t.contexts.modify p fun k =>
      { k with created := k.created + 1, children := k.children ++ [t.contexts.size] }).push
        { Context.start kind identity with parent? := some p } }

/-- The table with a new variable of a context. -/
def SymbolTable.withVariable (t : SymbolTable) (c : ContextId) (name : String)
    (type? : Option TypeId) (category : VariableCategory) : SymbolTable :=
  { t with
    contexts := t.contexts.modify c fun k => { k with vars := k.vars.put name t.vars.size }
    vars := t.vars.push ⟨name, type?, none, category, c⟩ }

/-- The table with a new type of a context, and the context of its members. -/
def SymbolTable.withType (t : SymbolTable) (c : ContextId) (name identity : String) : SymbolTable :=
  { t.extended (.ofType t.types.size) c identity with
    contexts := (t.extended (.ofType t.types.size) c identity).contexts.modify c
      fun k => { k with types := k.types.put name t.types.size }
    types := t.types.push ⟨name, .user, t.contexts.size, []⟩ }

/-- The table with a new function of a context, and the context of its parameters. -/
def SymbolTable.withFunction (t : SymbolTable) (c : ContextId) (name : String)
    (parameters : List (String × Option TypeId)) (returnType? : Option TypeId) (identity : String)
    (vars : Names VariableId → Names VariableId) : SymbolTable :=
  { t.extended (.ofFunction t.functions.size) c identity with
    contexts := ((t.extended (.ofFunction t.functions.size) c identity).contexts.modify
      t.contexts.size fun k => { k with vars := vars k.vars }).modify c fun k =>
        { k with
          functions := k.functions.put name
            ((k.functions.lookup name).getD [] ++ [t.functions.size]) }
    functions := t.functions.push
      ⟨name, t.contexts.size, c, List.range' t.vars.size parameters.length, returnType?⟩
    vars := t.vars ++ (parameters.map fun (n, type?) =>
      ⟨n, type?, none, .parameter, t.contexts.size⟩).toArray }

/-- The parameter types of a function, if all it speaks of exists. -/
def SymbolTable.signature? (t : SymbolTable) (f : FunctionId) : Option (List (Option TypeId)) := do
  (← t.functions[f]?).parameters.mapM fun v => t.vars[v]?.map (·.type?)

namespace Scoping

variable {α β γ : Type} {f : Scoping α} {g : α → Scoping β} {t t' : SymbolTable} {a : α}
variable {Q Q' : α → SymbolTable → Prop} {R : β → SymbolTable → Prop} {E : SymbolTable → Prop}
variable {c p : ContextId} {x y : Context}

/-! ## Outcomes -/

/-- **Unless the change crashes**, it ends with a value and a table of which something holds, or it
is refused with a report and leaves a table of which something else holds. -/
def Ends (f : Scoping α) (t : SymbolTable) (Q : α → SymbolTable → Prop) (E : SymbolTable → Prop) :
    Prop :=
  (∀ a t', f t = .ok a t' → Q a t') ∧ ∀ e t', f t = .error (.report e) t' → E t'

theorem bind_of_ok (h : f t = .ok a t') : (f >>= g) t = g a t' := by
  change EStateM.bind f g t = g a t'
  rw [EStateM.bind, h]

namespace Ends

theorem of_ok (h : f t = .ok a t') (hq : Q a t') : Ends f t Q E := by
  refine ⟨fun b t'' hf => ?_, fun e t'' hf => ?_⟩ <;> rw [h] at hf <;> cases hf
  exact hq

theorem pure (h : Q a t) : Ends (Pure.pure a) t Q E := of_ok rfl h

theorem mono (h : Ends f t Q E) (hq : ∀ a t', Q a t' → Q' a t') : Ends f t Q' E :=
  ⟨fun a t' hf => hq a t' (h.1 a t' hf), h.2⟩

theorem bind (hf : Ends f t Q E) (hg : ∀ a t', Q a t' → Ends (g a) t' R E) :
    Ends (f >>= g) t R E := by
  unfold Ends
  change (∀ b t'', EStateM.bind f g t = _ → _) ∧ ∀ e t'', EStateM.bind f g t = _ → _
  rw [EStateM.bind]
  cases h : f t with
  | ok a t' => exact hg a t' (hf.1 a t' h)
  | error e t' =>
    refine ⟨fun b t'' hb => (by cases hb), fun e' t'' he => ?_⟩
    cases he
    exact hf.2 _ _ h

theorem step (h : f t = .ok a t') (hg : Ends (g a) t' R E) : Ends (f >>= g) t R E :=
  bind (of_ok (Q := fun b u => b = a ∧ u = t') h ⟨rfl, rfl⟩) (by rintro _ _ ⟨rfl, rfl⟩; exact hg)

theorem refuse {kind : SymbolKind} {name : String} (h : E t) :
    Ends (Scoping.refuse kind name : Scoping α) t Q E := by
  refine ⟨fun a t' hf => (by cases hf), fun e t' hf => ?_⟩
  cases hf
  exact h

theorem ask {q : SymbolTable → Except Fault α} (hq : ∀ a, q t = .ok a → Q a t)
    (he : ∀ e, q t ≠ .error (.report e)) : Ends (Scoping.ask q) t Q E := by
  unfold Ends
  rw [Scoping.ask]
  cases h : q t with
  | ok a => exact of_ok (f := fun u => .ok a u) rfl (hq a h)
  | error e =>
    refine ⟨fun b t' hb => (by cases hb), fun e' t' hb => ?_⟩
    cases hb
    exact absurd h (he _)

theorem expect {o : SymbolTable → Option α} (hq : ∀ a, o t = some a → Q a t) :
    Ends (Scoping.ask fun t => Fault.expect .missing (o t)) t Q E := by
  refine ask (fun a h => hq a ?_) fun e h => ?_
  all_goals
    revert h
    cases o t <;> simp [Fault.expect]

theorem askContext {Q : Context → SymbolTable → Prop}
    (h : ∀ x, t.contexts[c]? = some x → Q x t) : Ends (Scoping.ask (·.context c)) t Q E :=
  expect h

theorem askType {Q : TypeInfo → SymbolTable → Prop} {i : TypeId}
    (h : ∀ x, t.types[i]? = some x → Q x t) : Ends (Scoping.ask (·.typeInfo i)) t Q E :=
  expect h

theorem askFunction {Q : FunctionInfo → SymbolTable → Prop} {i : FunctionId}
    (h : ∀ x, t.functions[i]? = some x → Q x t) : Ends (Scoping.ask (·.functionInfo i)) t Q E :=
  expect h

theorem askVariable {Q : VariableInfo → SymbolTable → Prop} {v : VariableId}
    (h : ∀ x, t.vars[v]? = some x → Q x t) : Ends (Scoping.ask (·.variableInfo v)) t Q E :=
  expect h

theorem modify {Q : Unit → SymbolTable → Prop} {k : SymbolTable → SymbolTable}
    (h : Q () (k t)) : Ends (modify k) t Q E :=
  of_ok rfl h

theorem withContext {h : Context → Scoping β}
    (hg : ∀ x, t.contexts[c]? = some x → Ends (h x) t R E) :
    Ends (Scoping.ask (·.context c) >>= h) t R E :=
  bind (askContext (Q := fun x u => u = t ∧ t.contexts[c]? = some x) fun _ hx => ⟨rfl, hx⟩)
    (by rintro x _ ⟨rfl, hx⟩; exact hg x hx)

theorem modifyContext {Q : Unit → SymbolTable → Prop} {k : Context → Context}
    (h : ∀ x, t.contexts[c]? = some x → Q () { t with contexts := t.contexts.modify c k }) :
    Ends (Scoping.modifyContext c k) t Q E :=
  withContext fun x hx => modify (h x hx)

theorem modifyVariable {Q : Unit → SymbolTable → Prop} {v : VariableId}
    {k : VariableInfo → VariableInfo} (h : Q () { t with vars := t.vars.modify v k }) :
    Ends (Scoping.modifyVariable v k) t Q E :=
  bind (askVariable (Q := fun _ u => u = t) fun _ _ => rfl) (by rintro _ _ rfl; exact modify h)

theorem modifyType {Q : Unit → SymbolTable → Prop} {i : TypeId} {k : TypeInfo → TypeInfo}
    (h : ∀ x, t.types[i]? = some x → Q () { t with types := t.types.modify i k }) :
    Ends (Scoping.modifyType i k) t Q E :=
  bind (askType (Q := fun x u => u = t ∧ t.types[i]? = some x) fun _ hx => ⟨rfl, hx⟩)
    (by rintro x _ ⟨rfl, hx⟩; exact modify (h x hx))

/-- A list is worked through if what is known ahead of each member is known behind it of the
rest. -/
theorem forIn {l : List γ} {body : γ → PUnit → Scoping (ForInStep PUnit)}
    (I : List γ → SymbolTable → Prop) (h : I l t)
    (hb : ∀ z rest u, z ∈ l → I (z :: rest) u →
      Ends (body z ⟨⟩) u (fun s u' => s = .yield ⟨⟩ ∧ I rest u') E) :
    Ends (forIn l ⟨⟩ body) t (fun _ => I []) E := by
  induction l generalizing t with
  | nil => exact pure h
  | cons z l ih =>
    rw [List.forIn_cons]
    refine bind (hb z l t List.mem_cons_self h) ?_
    rintro _ u ⟨rfl, hu⟩
    exact ih hu fun z rest u hz => hb z rest u (List.mem_cons_of_mem _ hz)

theorem mapM {l : List γ} {k : γ → Scoping β} {I : SymbolTable → Prop} (h : I t)
    (hk : ∀ z u, z ∈ l → I u → Ends (k z) u (fun _ => I) E) :
    Ends (l.mapM k) t (fun _ => I) E := by
  induction l generalizing t with
  | nil => exact pure h
  | cons z l ih =>
    rw [List.mapM_cons]
    refine bind (hk z t List.mem_cons_self h) fun _ u hu => ?_
    exact bind (ih hu fun z u hz => hk z u (List.mem_cons_of_mem _ hz)) fun _ _ h => pure h

theorem mapM_question {l : List γ} {k : γ → Scoping β} {o : γ → Option β}
    (hk : ∀ z ∈ l, Ends (k z) t (fun b u => u = t ∧ o z = some b) E) :
    Ends (l.mapM k) t (fun bs u => u = t ∧ l.mapM o = some bs) E := by
  induction l with
  | nil => exact pure ⟨rfl, rfl⟩
  | cons z l ih =>
    rw [List.mapM_cons]
    refine bind (hk z List.mem_cons_self) ?_
    rintro b _ ⟨rfl, hb⟩
    refine bind (ih fun z hz => hk z (List.mem_cons_of_mem _ hz)) ?_
    rintro bs _ ⟨rfl, hbs⟩
    exact pure ⟨rfl, by simp [List.mapM_cons, hb, hbs]⟩

end Ends

/-! ## New contexts -/

theorem modify_congr {xs : Array γ} {i : Nat} {z : γ} {h k : γ → γ}
    (hz : xs[i]? = some z) (he : h z = k z) : xs.modify i h = xs.modify i k := by
  refine Array.ext_getElem? fun j => ?_
  rw [Array.getElem?_modify, Array.getElem?_modify]
  split
  next hj => rw [← hj, hz, Option.map_some, Option.map_some, he]
  next => rfl

theorem modify_eq_self {xs : Array γ} {i : Nat} {z : γ} {h : γ → γ}
    (hz : xs[i]? = some z) (he : h z = z) : xs.modify i h = xs := by
  refine Array.ext_getElem? fun j => ?_
  rw [Array.getElem?_modify]
  split
  next hj => rw [← hj, hz, Option.map_some, he]
  next => rfl

theorem askContext_eq (hx : t.contexts[c]? = some x) : ask (·.context c) t = .ok x t := by
  rw [ask, SymbolTable.context, hx]
  rfl

theorem modifyContext_eq (hx : t.contexts[c]? = some x) (k : Context → Context) :
    modifyContext c k t = .ok () { t with contexts := t.contexts.modify c k } :=
  bind_of_ok (askContext_eq hx)

theorem forgetMangles_eq (hx : t.contexts[c]? = some x) :
    forgetMangles c t = .ok () { t with
      contexts := (subtree t c).foldl
        (fun cs d => cs.modify d ({ · with mangle? := none })) t.contexts } :=
  bind_of_ok (askContext_eq hx)

theorem adoptHints_eq (hx : t.contexts[c]? = some x) :
    adoptHints c t = .ok () { t with
      vars := ((subtree t c).flatMap fun d => t.contexts[d]?.elim [] (·.variableIds)).foldl
        (fun vs v => vs.modify v fun i => { i with type? := i.type?.orElse fun _ => i.hint? })
        t.vars } :=
  bind_of_ok (askContext_eq hx)

theorem subtree_of_childless (hx : t.contexts[c]? = some x) (hc : x.children = []) :
    subtree t c = [c] := by
  have hn : 0 < t.contexts.size := Nat.zero_lt_of_lt (Array.getElem?_eq_some_iff.mp hx).1
  obtain ⟨n, hn⟩ := Nat.exists_eq_succ_of_ne_zero (Nat.ne_of_gt hn)
  rw [subtree, hn, below, hx, Option.elim_some, hc]
  rfl

theorem forgetMangles_bind_adoptHints (hx : t.contexts[c]? = some x) (hc : x.children = [])
    (hv : x.vars = []) (hm : x.mangle? = none) :
    (forgetMangles c >>= fun _ => adoptHints c) t = .ok () t := by
  rw [bind_of_ok (forgetMangles_eq hx), subtree_of_childless hx hc, List.foldl_cons,
    List.foldl_nil, modify_eq_self hx (by rw [← hm]), adoptHints_eq hx, subtree_of_childless hx hc,
    List.flatMap_singleton, hx, Option.elim_some, Context.variableIds, hv, List.map_nil,
    List.mergeSort_nil]
  rfl

theorem link_eq (hy : t.contexts[c]? = some y) (hx : t.contexts[p]? = some x) (hne : c ≠ p)
    (hp : y.parent? = none) (hch : y.children = []) (hv : y.vars = []) (hm : y.mangle? = none)
    (hc : c ∉ x.children) :
    link c p t = .ok () { t with
      contexts := (t.contexts.modify c ({ · with parent? := some p })).modify p
        fun k => { k with children := k.children ++ [c] } } := by
  have hx₁ : (t.contexts.modify c ({ · with parent? := some p }))[p]? = some x := by
    rw [Array.getElem?_modify, if_neg hne, hx]
  have hy₂ : ((t.contexts.modify c ({ · with parent? := some p })).modify p
      fun k => { k with children := k.children ++ [c] })[c]? =
        some { y with parent? := some p } := by
    rw [Array.getElem?_modify, if_neg hne.symm, Array.getElem?_modify, if_pos rfl, hy]
    rfl
  rw [link, bind_of_ok (askContext_eq hy), hp]
  change ((modifyContext c _) >>= fun _ => _) t = _
  rw [bind_of_ok (modifyContext_eq hy _), bind_of_ok (modifyContext_eq hx₁ _),
    modify_congr (k := fun k => { k with children := k.children ++ [c] }) hx₁
      (by rw [if_neg (by simpa using hc)])]
  exact forgetMangles_bind_adoptHints hy₂ hch hv hm

/-- **A new context** is the last child of its parent, and nothing else changes. -/
theorem createContext_eq (kind : ContextKind) (hx : t.contexts[p]? = some x)
    (hc : t.contexts.size ∉ x.children) :
    createContext kind p t =
      .ok t.contexts.size (t.extended kind p s!"{x.identity}.{x.created}") := by
  have hp : p < t.contexts.size := (Array.getElem?_eq_some_iff.mp hx).1
  have hne : t.contexts.size ≠ p := Nat.ne_of_gt hp
  rw [createContext, bind_of_ok (askContext_eq hx), bind_of_ok (modifyContext_eq hx _)]
  generalize s!"{x.identity}.{x.created}" = identity
  -- the context is there, but without a parent
  obtain ⟨u, hu⟩ : ∃ u : SymbolTable, u = { t with
      contexts := (t.contexts.modify p fun k => { k with created := k.created + 1 }).push
        (.start kind identity) } := ⟨_, rfl⟩
  have hget (d : ContextId) : u.contexts[d]? = if d = t.contexts.size then
      some (.start kind identity) else
      (t.contexts.modify p fun k => { k with created := k.created + 1 })[d]? := by
    rw [hu, Array.getElem?_push, Array.size_modify]
  have hnew : u.contexts[t.contexts.size]? = some (.start kind identity) := by
    rw [hget, if_pos rfl]
  have hold : u.contexts[p]? = some { x with created := x.created + 1 } := by
    rw [hget, if_neg hne.symm, Array.getElem?_modify, if_pos rfl, hx]
    rfl
  have hlink := link_eq hnew hold hne rfl rfl rfl rfl hc
  have hcontexts : (u.contexts.modify t.contexts.size ({ · with parent? := some p })).modify p
      (fun k => { k with children := k.children ++ [t.contexts.size] }) =
        (t.extended kind p identity).contexts := by
    refine Array.ext_getElem? fun d => ?_
    rw [SymbolTable.extended, Array.getElem?_push, Array.size_modify, Array.getElem?_modify,
      Array.getElem?_modify, hget, Array.getElem?_modify, Array.getElem?_modify]
    by_cases hd : d = t.contexts.size
    · simp [hd, hne.symm]
    · by_cases hpd : p = d <;> simp [hd, Ne.symm hd, hpd, Function.comp_def]
  rw [hcontexts, hu] at hlink
  change (link (t.contexts.modify p _).size p >>= fun _ => pure _) _ = _
  rw [Array.size_modify]
  exact bind_of_ok hlink

/-! ## Declarations -/

/-- **A variable** gets the next number, unless its name is declared. -/
theorem declareVariable_ends {Q : VariableId → SymbolTable → Prop} {name : String}
    {type? : Option TypeId} {category : VariableCategory}
    (h : ∀ x, t.contexts[c]? = some x → x.vars.lookup name = none →
      Q t.vars.size (t.withVariable c name type? category)) (he : E t) :
    Ends (declareVariable c name type? category) t Q E := by
  refine .withContext fun x hx => ?_
  dsimp only
  split
  · exact .bind (Q := fun _ _ => False) (.refuse he) fun _ _ h => h.elim
  next hn =>
    refine .step rfl (.step rfl (.bind (Q := fun _ u => Q t.vars.size u)
      (.modifyContext fun _ _ => ?_) fun _ _ => .pure))
    exact h x hx (Option.not_isSome_iff_eq_none.mp hn)

/-- **A type** gets the next number and a new context, unless its name is declared. -/
theorem declareType_ends {Q : TypeId → SymbolTable → Prop} {name : String}
    (hc : ∀ x, t.contexts[c]? = some x → t.contexts.size ∉ x.children)
    (h : ∀ x identity, t.contexts[c]? = some x → x.types.lookup name = none →
      Q t.types.size (t.withType c name identity)) (he : E t) :
    Ends (declareType c name) t Q E := by
  refine .withContext fun x hx => ?_
  dsimp only
  split
  · exact .bind (Q := fun _ _ => False) (.refuse he) fun _ _ h => h.elim
  next hn =>
    refine .step rfl (.step (createContext_eq _ hx (hc x hx)) (.step rfl
      (.bind (Q := fun _ u => Q t.types.size u) (.modifyContext fun _ _ => ?_) fun _ _ => .pure)))
    exact h x _ hx (Option.not_isSome_iff_eq_none.mp hn)

theorem signature_ends (f : FunctionId) :
    Ends (signature f) t (fun s u => u = t ∧ t.signature? f = some s) E := by
  refine .bind (Q := fun i u => u = t ∧ t.functions[f]? = some i)
    (.askFunction fun _ h => ⟨rfl, h⟩) ?_
  rintro i u ⟨rfl, hi⟩
  have hs : u.signature? f = i.parameters.mapM fun v => u.vars[v]?.map (·.type?) := by
    rw [SymbolTable.signature?, hi]
    rfl
  rw [hs]
  refine .mapM_question fun v _ => .bind (Q := fun i w => w = u ∧ u.vars[v]? = some i)
    (.askVariable fun _ h => ⟨rfl, h⟩) ?_
  rintro i _ ⟨rfl, hi⟩
  exact .pure ⟨rfl, by rw [hi]; rfl⟩

theorem mem_of_mapM {l : List γ} {o : γ → Option β} {bs : List β} {z : γ} {b : β}
    (h : l.mapM o = some bs) (hz : z ∈ l) (hb : o z = some b) : b ∈ bs := by
  induction l generalizing bs with
  | nil => cases hz
  | cons w l ih =>
    rw [List.mapM_cons] at h
    obtain ⟨d, hd, h⟩ := Option.bind_eq_some_iff.mp h
    obtain ⟨ds, hds, h⟩ := Option.bind_eq_some_iff.mp h
    cases h
    rcases List.mem_cons.mp hz with rfl | hz
    · rw [hb] at hd
      cases hd
      exact List.mem_cons_self
    · exact List.mem_cons_of_mem _ (ih hds hz)

/-- Variables of one context get the next numbers in order. -/
theorem mapM_declareVariable_ends (category : VariableCategory)
    (parameters : List (String × Option TypeId)) :
    Ends (parameters.mapM fun (n, type?) => declareVariable c n type? category) t
      (fun vs u => vs = List.range' t.vars.size parameters.length ∧
        ∃ k : Names VariableId → Names VariableId, u = { t with
          contexts := t.contexts.modify c fun x => { x with vars := k x.vars }
          vars := t.vars ++
            (parameters.map fun (n, type?) => ⟨n, type?, none, category, c⟩).toArray })
      fun _ => True := by
  induction parameters generalizing t with
  | nil =>
    refine .pure ⟨rfl, id, ?_⟩
    have hid : t.contexts.modify c (fun x => { x with vars := id x.vars }) = t.contexts := by
      refine Array.ext_getElem? fun d => ?_
      rw [Array.getElem?_modify]
      split <;> simp
    rw [hid, List.map_nil, Array.append_empty]
  | cons p parameters ih =>
    rw [List.mapM_cons]
    refine .bind (declareVariable_ends (Q := fun v u => v = t.vars.size ∧ _ = u)
      (fun x hx _ => ⟨rfl, rfl⟩) trivial) ?_
    rintro v _ ⟨rfl, rfl⟩
    refine .bind ih ?_
    rintro _ _ ⟨rfl, k, rfl⟩
    refine .pure ⟨?_, fun ns => k (ns.put p.1 t.vars.size), ?_⟩
    · simp [List.range'_succ, SymbolTable.withVariable]
    · have hmodify : (t.contexts.modify c fun x =>
          { x with vars := x.vars.put p.1 t.vars.size }).modify c (fun x =>
            { x with vars := k x.vars }) =
            t.contexts.modify c fun x => { x with vars := k (x.vars.put p.1 t.vars.size) } := by
        refine Array.ext_getElem? fun d => ?_
        simp only [Array.getElem?_modify]
        split <;> simp [Function.comp_def]
      simp [SymbolTable.withVariable, hmodify]

/-- **A function** gets the next number and a new context, unless a function of that name has the
same parameter types. -/
theorem declareFunction_ends {Q : FunctionId → SymbolTable → Prop} {name : String}
    {parameters : List (String × Option TypeId)} {returnType? : Option TypeId}
    (hc : ∀ x, t.contexts[c]? = some x → t.contexts.size ∉ x.children)
    (h : ∀ x identity vars, t.contexts[c]? = some x →
      (∀ f ∈ (x.functions.lookup name).getD [],
        t.signature? f ≠ some (parameters.map (·.2))) →
      Q t.functions.size (t.withFunction c name parameters returnType? identity vars)) :
    Ends (declareFunction c name parameters returnType?) t Q fun _ => True := by
  refine .withContext fun x hx => ?_
  dsimp only
  refine .bind (.mapM_question fun f _ => signature_ends f) ?_
  rintro signatures t ⟨rfl, hs⟩
  split
  · exact .bind (Q := fun _ _ => False) (.refuse trivial) fun _ _ h => h.elim
  next hn =>
    have hnew (f) (hf : f ∈ (x.functions.lookup name).getD []) :
        t.signature? f ≠ some (parameters.map (·.2)) := fun he =>
      hn (List.contains_iff_mem.mpr (mem_of_mapM hs hf he))
    refine .step rfl (.step (createContext_eq _ hx (hc x hx)) ?_)
    refine .bind (mapM_declareVariable_ends .parameter parameters) ?_
    rintro _ _ ⟨rfl, k, rfl⟩
    refine .step rfl (.bind (Q := fun _ u => Q t.functions.size u) (.modifyContext fun _ _ => ?_)
      fun _ _ => .pure)
    exact h x _ k hx hnew

end Scoping

end Codegen
