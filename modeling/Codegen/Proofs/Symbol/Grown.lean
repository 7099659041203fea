import Codegen.Proofs.Symbol.Reached

/-!
# Growing tables

Declarations only add to a table. Each context but the global one belongs to a type or to a
function of the context around it, which that context knows by name; and no two functions of a
context have the same name and the same parameter types.

* `SymbolTable.Extends`: what a table has, another one has too;
* `SymbolTable.Placed`, `Orderly`: **the place of each context**;
* `SymbolTable.Grown`, `Orderly.withType`, `withFunction`, ...: tables that grew;
* `Change.run_grown`: **declarations make tables grow**.
-/

namespace Codegen

/-- Does the change declare a type, a variable or a function? -/
def Change.IsDeclaration : Change → Prop
  | newType .. | supertype .. | newVariable .. | newMember .. | newFunction .. => True
  | _ => False

theorem Change.IsDeclaration.fits {ch : Change} (h : ch.IsDeclaration) (t : SymbolTable) :
    ch.Fits t := by
  cases ch <;> trivial

/-- A context declares what it did, and perhaps more. -/
structure Context.Grows (x y : Context) : Prop where
  kind : y.kind = x.kind
  parent : y.parent? = x.parent?
  types : ∀ {n i}, x.types.lookup n = some i → y.types.lookup n = some i
  functions : ∀ {n f}, f ∈ (x.functions.lookup n).getD [] → f ∈ (y.functions.lookup n).getD []

theorem Context.Grows.refl (x : Context) : x.Grows x := ⟨rfl, rfl, id, id⟩

/-- The context around a new type, whose members a new context holds. -/
def Context.aroundType (x : Context) (name : String) (i : TypeId) (child : ContextId) : Context :=
  { x with
    created := x.created + 1
    children := x.children ++ [child]
    types := x.types.put name i }

/-- The context around a new function, whose parameters a new context holds. -/
def Context.aroundFunction (x : Context) (name : String) (f : FunctionId) (child : ContextId) :
    Context :=
  { x with
    created := x.created + 1
    children := x.children ++ [child]
    functions := x.functions.put name ((x.functions.lookup name).getD [] ++ [f]) }

theorem Context.lookup_aroundType (x : Context) (name n : String) (i : TypeId) (child : ContextId) :
    (x.aroundType name i child).types.lookup n =
      if n = name then some i else x.types.lookup n := Names.lookup_put ..

theorem Context.lookup_aroundFunction (x : Context) (name n : String) (f : FunctionId)
    (child : ContextId) : (x.aroundFunction name f child).functions.lookup n =
      if n = name then some ((x.functions.lookup name).getD [] ++ [f])
      else x.functions.lookup n := Names.lookup_put ..

theorem Context.Grows.aroundType {x : Context} {name : String} (hn : x.types.lookup name = none)
    (i : TypeId) (child : ContextId) : x.Grows (x.aroundType name i child) := by
  refine ⟨rfl, rfl, fun {n j} hj => ?_, id⟩
  rw [lookup_aroundType, if_neg (by rintro rfl; cases hn.symm.trans hj), hj]

theorem Context.Grows.aroundFunction (x : Context) (name : String) (f : FunctionId)
    (child : ContextId) : x.Grows (x.aroundFunction name f child) := by
  refine ⟨rfl, rfl, id, fun {n g} hg => ?_⟩
  rw [lookup_aroundFunction]
  split
  next he => exact List.mem_append_left _ (he ▸ hg)
  next => exact hg

namespace SymbolTable

variable {t u : SymbolTable} {c p : ContextId} {x : Context}

theorem typeInfo_eq {i : TypeId} {x : TypeInfo} (h : t.types[i]? = some x) :
    t.typeInfo i = .ok x := by
  rw [typeInfo, h]
  rfl

/-- What a context belongs to. -/
def kind? (t : SymbolTable) (c : ContextId) : Option ContextKind := t.contexts[c]?.map (·.kind)

theorem kind?_eq_none (h : t.contexts.size ≤ c) : t.kind? c = none := by
  rw [kind?, Array.getElem?_eq_none h]
  rfl

theorem exists_kind? (h : c < t.contexts.size) : ∃ k, t.kind? c = some k := by
  rw [kind?, Array.getElem?_eq_getElem h]
  exact ⟨_, rfl⟩

theorem lt_size_of_kind? {k : ContextKind} (h : t.kind? c = some k) : c < t.contexts.size := by
  by_contra hc
  rw [kind?_eq_none (Nat.le_of_not_lt hc)] at h
  cases h

/-- **What a table has, another one has too.** -/
structure Extends (t u : SymbolTable) : Prop where
  context : ∀ {c : ContextId} {x : Context}, t.contexts[c]? = some x →
    ∃ y, u.contexts[c]? = some y ∧ x.Grows y
  /-- A type may get more supertypes. -/
  type : ∀ {i : TypeId} {x : TypeInfo}, t.types[i]? = some x →
    ∃ s, u.types[i]? = some { x with supertypes := s }
  function : ∀ {f : FunctionId} {x : FunctionInfo}, t.functions[f]? = some x →
    u.functions[f]? = some x
  var : ∀ {v : VariableId} {x : VariableInfo}, t.vars[v]? = some x → u.vars[v]? = some x

/-- **The place of a context** that is not the global one. -/
inductive Placed (t : SymbolTable) (c : ContextId) : Prop
  | ofType {p : ContextId} {i : TypeId} {x : TypeInfo} (parent : t.links.parent? c = some p)
    (lt : p < c) (kind : t.kind? c = some (.ofType i)) (type : t.types[i]? = some x)
    (user : x.kind = .user) (context : x.context = c)
    (name : (t.declarations p).types.lookup x.name = some i)
  | ofFunction {f : FunctionId} {x : FunctionInfo} {s : List (Option TypeId)}
    (parent : t.links.parent? c = some x.parent) (lt : x.parent < c)
    (kind : t.kind? c = some (.ofFunction f)) (function : t.functions[f]? = some x)
    (context : x.context = c)
    (name : f ∈ ((t.declarations x.parent).functions.lookup x.name).getD [])
    (signature : t.signature? f = some s)

/-- **Each context of the table has its place**, and so has each type and each function. -/
structure Orderly (t : SymbolTable) : Prop where
  root : t.kind? globalContext = some .global
  top : t.links.parent? globalContext = none
  placed : ∀ {c k}, t.kind? c = some k → c ≠ globalContext → t.Placed c
  type : ∀ {i : TypeId} {x : TypeInfo}, t.types[i]? = some x → x.kind = .user →
    t.kind? x.context = some (.ofType i)
  /-- Built-in types differ in kind. -/
  builtIn : ∀ {i j : TypeId} {x y : TypeInfo}, t.types[i]? = some x → t.types[j]? = some y →
    x.kind ≠ .user → x.kind = y.kind → i = j
  function : ∀ {f : FunctionId} {x : FunctionInfo}, t.functions[f]? = some x →
    t.kind? x.context = some (.ofFunction f)
  distinct : ∀ {f g : FunctionId} {x y : FunctionInfo}, t.functions[f]? = some x →
    t.functions[g]? = some y → x.parent = y.parent → x.name = y.name →
    t.signature? f = t.signature? g → f = g

/-- **A table that grew by a declaration**: all that was there is there, each context has its place,
and no mangle is remembered that was not. -/
structure Grown (t u : SymbolTable) : Prop where
  kept : t.Extends u
  orderly : u.Orderly
  memo : ∀ {c : ContextId} {y : Context} {m : Mangle}, u.contexts[c]? = some y →
    y.mangle? = some m → ∃ x, t.contexts[c]? = some x ∧ x.mangle? = some m

/-! ## Growth -/

theorem Extends.kind (e : t.Extends u) {k : ContextKind} (h : t.kind? c = some k) :
    u.kind? c = some k := by
  obtain ⟨x, hx, rfl⟩ := Option.map_eq_some_iff.mp h
  obtain ⟨y, hy, hg⟩ := e.context hx
  rw [kind?, hy, Option.map_some, hg.kind]

theorem Extends.parent (e : t.Extends u) (h : t.links.parent? c = some p) :
    u.links.parent? c = some p := by
  obtain ⟨x, hx, hp⟩ := Option.bind_eq_some_iff.mp h
  obtain ⟨y, hy, hg⟩ := e.context hx
  rw [links_parent_of hy, hg.parent, hp]

theorem Extends.typeName (e : t.Extends u) {n : String} {i : TypeId}
    (h : (t.declarations c).types.lookup n = some i) :
    (u.declarations c).types.lookup n = some i := by
  cases hx : t.contexts[c]? with
  | none =>
    rw [declarations, hx] at h
    cases h
  | some x =>
    obtain ⟨y, hy, hg⟩ := e.context hx
    rw [declarations_eq hx] at h
    rw [declarations_eq hy]
    exact hg.types h

theorem Extends.functionName (e : t.Extends u) {n : String} {f : FunctionId}
    (h : f ∈ ((t.declarations c).functions.lookup n).getD []) :
    f ∈ ((u.declarations c).functions.lookup n).getD [] := by
  cases hx : t.contexts[c]? with
  | none =>
    rw [declarations, hx] at h
    cases h
  | some x =>
    obtain ⟨y, hy, hg⟩ := e.context hx
    rw [declarations_eq hx] at h
    rw [declarations_eq hy]
    exact hg.functions h

theorem Extends.signature (e : t.Extends u) {f : FunctionId} {s : List (Option TypeId)}
    (h : t.signature? f = some s) : u.signature? f = some s := by
  obtain ⟨x, hx, hs⟩ := Option.bind_eq_some_iff.mp h
  have hsame {vs : List VariableId} {s : List (Option TypeId)}
      (h : vs.mapM (fun v => t.vars[v]?.map (·.type?)) = some s) :
      vs.mapM (fun v => u.vars[v]?.map (·.type?)) = some s := by
    induction vs generalizing s with
    | nil => exact h
    | cons v vs ih =>
      rw [List.mapM_cons] at h ⊢
      obtain ⟨a, ha, h⟩ := Option.bind_eq_some_iff.mp h
      obtain ⟨as, has, h⟩ := Option.bind_eq_some_iff.mp h
      obtain ⟨y, hy, rfl⟩ := Option.map_eq_some_iff.mp ha
      rw [e.var hy, ih has]
      exact h
  exact Option.bind_eq_some_iff.mpr ⟨x, e.function hx, hsame hs⟩

theorem Placed.extend (e : t.Extends u) (h : t.Placed c) : u.Placed c := by
  cases h with
  | ofType parent lt kind type user context name =>
    obtain ⟨s, hs⟩ := e.type type
    exact .ofType (e.parent parent) lt (e.kind kind) hs user context
      (e.typeName name)
  | ofFunction parent lt kind function context name signature =>
    exact .ofFunction (e.parent parent) lt (e.kind kind)
      (e.function function) context (e.functionName name) (e.signature signature)

theorem Orderly.function_placed (h : t.Orderly) {f : FunctionId} {x : FunctionInfo}
    (hf : t.functions[f]? = some x) :
    t.links.parent? x.context = some x.parent ∧
      f ∈ ((t.declarations x.parent).functions.lookup x.name).getD [] ∧
      ∃ s, t.signature? f = some s := by
  have hkind := h.function hf
  have hne : x.context ≠ globalContext := by
    intro he
    rw [he, h.root] at hkind
    cases hkind
  cases h.placed hkind hne with
  | ofType _ _ kind => cases kind.symm.trans hkind
  | ofFunction parent _ kind function context name signature =>
    cases kind.symm.trans hkind
    cases function.symm.trans hf
    exact ⟨parent, name, _, signature⟩

/-- What is new in a table gets its place too. -/
theorem Orderly.extend (h : t.Orderly) (e : t.Extends u)
    (hcontext : ∀ c k, u.kind? c = some k → t.kind? c = none → u.Placed c)
    (htype : ∀ i x, u.types[i]? = some x → t.types[i]? = none →
      x.kind = .user ∧ u.kind? x.context = some (.ofType i))
    (hfunction : ∀ f x, u.functions[f]? = some x → t.functions[f]? = none →
      u.kind? x.context = some (.ofFunction f) ∧ ∀ g y, u.functions[g]? = some y →
        x.parent = y.parent → x.name = y.name → u.signature? f = u.signature? g → f = g) :
    u.Orderly where
  root := e.kind h.root
  top := by
    obtain ⟨x, hx, -⟩ := Option.map_eq_some_iff.mp h.root
    obtain ⟨y, hy, hg⟩ := e.context hx
    rw [links_parent_of hy, hg.parent, ← links_parent_of hx, h.top]
  placed {c k} hc hne := by
    cases hold : t.kind? c with
    | none => exact hcontext c k hc hold
    | some k' => exact (h.placed hold hne).extend e
  type {i x} hx hu := by
    cases hold : t.types[i]? with
    | none => exact (htype i x hx hold).2
    | some y =>
      obtain ⟨s, hs⟩ := e.type hold
      cases hs.symm.trans hx
      exact e.kind (h.type (x := y) hold hu)
  builtIn {i j x y} hx hy hu hk := by
    cases hi : t.types[i]? with
    | none => exact absurd (htype i x hx hi).1 hu
    | some x' =>
      cases hj : t.types[j]? with
      | none => exact absurd (hk.trans (htype j y hy hj).1) hu
      | some y' =>
        obtain ⟨s, hs⟩ := e.type hi
        obtain ⟨s', hs'⟩ := e.type hj
        cases hs.symm.trans hx
        cases hs'.symm.trans hy
        exact h.builtIn hi hj hu hk
  function {f x} hf := by
    cases hold : t.functions[f]? with
    | none => exact (hfunction f x hf hold).1
    | some y =>
      cases (e.function hold).symm.trans hf
      exact e.kind (h.function hold)
  distinct {f g x y} hf hg hp hn hs := by
    cases hof : t.functions[f]? with
    | none => exact (hfunction f x hf hof).2 g y hg hp hn hs
    | some x' =>
      cases hog : t.functions[g]? with
      | none => exact ((hfunction g y hg hog).2 f x hf hp.symm hn.symm hs.symm).symm
      | some y' =>
        cases (e.function hof).symm.trans hf
        cases (e.function hog).symm.trans hg
        obtain ⟨-, -, s, hsf⟩ := h.function_placed hof
        obtain ⟨-, -, s', hsg⟩ := h.function_placed hog
        rw [e.signature hsf, e.signature hsg] at hs
        exact h.distinct hof hog hp hn (by rw [hsf, hsg, hs])

/-! ## What declarations add -/

theorem getElem?_push_of {α : Type} {xs : Array α} {i : Nat} {z : α} (h : xs[i]? = some z) (y : α) :
    (xs.push y)[i]? = some z := by
  rw [Array.getElem?_push, if_neg (Array.getElem?_eq_some_iff.mp h).1.ne, h]

/-- The last entry is the only new one. -/
theorem eq_of_getElem?_push {α : Type} {xs : Array α} {i : Nat} {y z : α}
    (h : (xs.push y)[i]? = some z) (hn : xs[i]? = none) : i = xs.size ∧ z = y := by
  rw [Array.getElem?_push] at h
  split at h
  next hi => exact ⟨hi, (Option.some.inj h).symm⟩
  next => cases hn.symm.trans h

/-- **A variable more** is no context, type or function more. -/
theorem Orderly.withVariable (h : t.Orderly) (c : ContextId) (name : String)
    (type? : Option TypeId) (category : VariableCategory) :
    t.Grown (t.withVariable c name type? category) := by
  have hget (d : ContextId) : (t.withVariable c name type? category).contexts[d]? =
      t.contexts[d]?.map fun x => if c = d then { x with vars := x.vars.put name t.vars.size }
        else x := by
    rw [SymbolTable.withVariable, Array.getElem?_modify]
    split
    · rfl
    · cases t.contexts[d]? <;> rfl
  have hkept : t.Extends (t.withVariable c name type? category) := by
    refine ⟨fun {d x} hx => ?_, fun hx => ⟨_, hx⟩, id, fun hv => getElem?_push_of hv _⟩
    refine ⟨_, by rw [hget, hx]; rfl, ?_⟩
    split
    · exact ⟨rfl, rfl, id, id⟩
    · exact .refl x
  refine ⟨hkept, h.extend hkept (fun d k hk hn => ?_) (fun i y hy hn => ?_) fun f y hy hn => ?_,
    fun {d y m} hy hm => ?_⟩
  · obtain ⟨x, hx, -⟩ := Option.map_eq_some_iff.mp hk
    rw [hget, Option.map_eq_none_iff.mp hn] at hx
    cases hx
  · cases hn.symm.trans hy
  · cases hn.symm.trans hy
  · rw [hget] at hy
    obtain ⟨x, hx, rfl⟩ := Option.map_eq_some_iff.mp hy
    refine ⟨x, hx, ?_⟩
    split at hm <;> exact hm

/-- **A supertype more** is no context, type or function more. -/
theorem Orderly.supertype (h : t.Orderly) (i : TypeId) (k : TypeInfo → List TypeId) :
    t.Grown { t with types := t.types.modify i fun x => { x with supertypes := k x } } := by
  have hkept : t.Extends { t with
      types := t.types.modify i fun x => { x with supertypes := k x } } := by
    refine ⟨fun {_ x} hx => ⟨x, hx, .refl x⟩, fun {j x} hx => ?_, id, id⟩
    rw [Array.getElem?_modify, hx]
    split
    · exact ⟨_, rfl⟩
    · exact ⟨_, rfl⟩
  refine ⟨hkept, h.extend hkept (fun d k hk hn => ?_) (fun j y hy hn => ?_) fun f y hy hn => ?_,
    fun hy hm => ⟨_, hy, hm⟩⟩
  · cases hn.symm.trans hk
  · rw [Array.getElem?_modify, hn] at hy
    split at hy <;> cases hy
  · cases hn.symm.trans hy

/-- A context is added below another one, which declares more. -/
theorem Extends.child (hx : t.contexts[c]? = some x) {y z : Context} (hg : x.Grows z)
    (hget : ∀ d : ContextId, u.contexts[d]? =
      if d = t.contexts.size then some y else if c = d then some z else t.contexts[d]?)
    (ht : ∀ {i : TypeId} {x : TypeInfo}, t.types[i]? = some x → u.types[i]? = some x)
    (hf : ∀ {f : FunctionId} {x : FunctionInfo}, t.functions[f]? = some x →
      u.functions[f]? = some x)
    (hv : ∀ {v : VariableId} {x : VariableInfo}, t.vars[v]? = some x → u.vars[v]? = some x) :
    t.Extends u := by
  refine ⟨fun {d x'} hx' => ?_, fun hx => ⟨_, ht hx⟩, hf, hv⟩
  rw [hget, if_neg (Array.getElem?_eq_some_iff.mp hx').1.ne]
  split
  next hd =>
    subst hd
    cases hx.symm.trans hx'
    exact ⟨z, rfl, hg⟩
  next => exact ⟨x', hx', .refl x'⟩

/-- The only new context is the one that was added. -/
theorem eq_size_of_new (hx : t.contexts[c]? = some x) {y z : Context}
    (hget : ∀ d : ContextId, u.contexts[d]? =
      if d = t.contexts.size then some y else if c = d then some z else t.contexts[d]?)
    {d : ContextId} {k : ContextKind} (hk : u.kind? d = some k) (hn : t.kind? d = none) :
    d = t.contexts.size := by
  by_contra hd
  rw [kind?, hget, if_neg hd] at hk
  split at hk
  next hc =>
    rw [← hc, kind?, hx] at hn
    cases hn
  next =>
    rw [kind?] at hn
    cases hn.symm.trans hk

/-- A context that is added remembers nothing. -/
theorem memo_child (hx : t.contexts[c]? = some x) {y z : Context} (hget : ∀ d : ContextId,
    u.contexts[d]? = if d = t.contexts.size then some y else if c = d then some z
      else t.contexts[d]?) (hz : z.mangle? = x.mangle?) (hy : y.mangle? = none)
    {d : ContextId} {w : Context} {m : Mangle} (hw : u.contexts[d]? = some w)
    (hm : w.mangle? = some m) : ∃ x, t.contexts[d]? = some x ∧ x.mangle? = some m := by
  rw [hget] at hw
  split at hw
  · cases hw
    cases hy.symm.trans hm
  · split at hw
    next hc =>
      cases hw
      exact ⟨x, hc ▸ hx, hz ▸ hm⟩
    next => exact ⟨w, hw, hm⟩

theorem withType_contexts (hx : t.contexts[c]? = some x) (name identity : String) (d : ContextId) :
    (t.withType c name identity).contexts[d]? =
      if d = t.contexts.size then
        some { Context.start (.ofType t.types.size) identity with parent? := some c }
      else if c = d then some (x.aroundType name t.types.size t.contexts.size)
      else t.contexts[d]? := by
  have hc : c < t.contexts.size := (Array.getElem?_eq_some_iff.mp hx).1
  rw [SymbolTable.withType, Array.getElem?_modify, getElem?_extended]
  by_cases hd : c = d
  · subst hd
    simp [hc.ne, hx, Context.aroundType]
  · simp [hd]

/-- **A type more.** -/
theorem Orderly.withType (h : t.Orderly) (hx : t.contexts[c]? = some x) {name : String}
    (hn : x.types.lookup name = none) (identity : String) :
    t.Grown (t.withType c name identity) := by
  have hc : c < t.contexts.size := (Array.getElem?_eq_some_iff.mp hx).1
  have hget := withType_contexts hx name identity
  have hnew : (t.withType c name identity).kind? t.contexts.size = some (.ofType t.types.size) := by
    rw [kind?, hget, if_pos rfl]
    rfl
  have hkept : t.Extends (t.withType c name identity) :=
    .child hx (.aroundType hn ..) hget (fun hi => getElem?_push_of hi _) id id
  refine ⟨hkept, h.extend hkept (fun d k hk hn => ?_) (fun i y hy hn => ?_) fun f y hy hn => ?_,
    memo_child hx hget rfl rfl⟩
  · obtain rfl := eq_size_of_new hx hget hk hn
    refine .ofType (p := c) (i := t.types.size) ?_ hc hnew Array.getElem?_push_size rfl rfl ?_
    · rw [links_parent, hget, if_pos rfl]
      rfl
    · rw [declarations, hget, if_neg hc.ne, if_pos rfl]
      exact (x.lookup_aroundType name name _ t.contexts.size).trans (if_pos rfl)
  · obtain ⟨rfl, rfl⟩ := eq_of_getElem?_push hy hn
    exact ⟨rfl, hnew⟩
  · cases hn.symm.trans hy

/-- The parameter types of a function whose parameters are the next variables. -/
theorem mapM_range' {vs : Array VariableInfo} {n : Nat} {types : List (Option TypeId)}
    (h : ∀ (j : Nat) (a : Option TypeId), types[j]? = some a → vs[n + j]?.map (·.type?) = some a) :
    (List.range' n types.length).mapM (fun v => vs[v]?.map (·.type?)) = some types := by
  induction types generalizing n with
  | nil => rfl
  | cons a types ih =>
    have hhead : vs[n]?.map (·.type?) = some a := h 0 a rfl
    have htail := ih (n := n + 1) fun j b hb => by
      rw [Nat.add_assoc, Nat.add_comm 1 j]
      exact h (j + 1) b hb
    rw [List.length_cons, List.range'_succ, List.mapM_cons, hhead, htail]
    rfl

theorem signature?_withFunction (t : SymbolTable) (c : ContextId) (name : String)
    (parameters : List (String × Option TypeId)) (returnType? : Option TypeId) (identity : String)
    (vars : Names VariableId → Names VariableId) :
    (t.withFunction c name parameters returnType? identity vars).signature? t.functions.size =
      some (parameters.map (·.2)) := by
  rw [signature?, SymbolTable.withFunction]
  simp only [Array.getElem?_push_size, Option.bind_eq_bind, Option.bind_some]
  have hlength : parameters.length = (parameters.map (·.2)).length := by rw [List.length_map]
  rw [hlength]
  refine mapM_range' fun j a ha => ?_
  rw [List.getElem?_map] at ha
  rw [Array.getElem?_append_right (Nat.le_add_right ..), Nat.add_sub_cancel_left,
    List.getElem?_toArray, List.getElem?_map]
  cases hj : parameters[j]? with
  | none => simp [hj] at ha
  | some p => simpa [hj] using ha

theorem withFunction_contexts (hx : t.contexts[c]? = some x) (name : String)
    (parameters : List (String × Option TypeId)) (returnType? : Option TypeId) (identity : String)
    (vars : Names VariableId → Names VariableId) (d : ContextId) :
    (t.withFunction c name parameters returnType? identity vars).contexts[d]? =
      if d = t.contexts.size then
        some { Context.start (.ofFunction t.functions.size) identity with
          parent? := some c, vars := vars [] }
      else if c = d then some (x.aroundFunction name t.functions.size t.contexts.size)
      else t.contexts[d]? := by
  have hc : c < t.contexts.size := (Array.getElem?_eq_some_iff.mp hx).1
  rw [SymbolTable.withFunction, Array.getElem?_modify, Array.getElem?_modify, getElem?_extended]
  by_cases hd : c = d
  · subst hd
    simp [hc.ne, hc.ne', hx, Context.aroundFunction]
  · by_cases hs : d = t.contexts.size
    · simp [hs, hc.ne, Context.start]
    · simp [hd, hs, Ne.symm hs]

theorem Extends.withFunction (hx : t.contexts[c]? = some x) (name : String)
    (parameters : List (String × Option TypeId)) (returnType? : Option TypeId) (identity : String)
    (vars : Names VariableId → Names VariableId) :
    t.Extends (t.withFunction c name parameters returnType? identity vars) :=
  .child hx (.aroundFunction ..)
    (withFunction_contexts hx name parameters returnType? identity vars) id (fun hf => getElem?_push_of hf _)
    fun hv => (Array.getElem?_append_left (Array.getElem?_eq_some_iff.mp hv).1).trans hv

/-- **A function more**, of another name or with other parameter types than those around it. -/
theorem Orderly.withFunction (h : t.Orderly) (hx : t.contexts[c]? = some x) {name : String}
    {parameters : List (String × Option TypeId)}
    (hn : ∀ f ∈ (x.functions.lookup name).getD [],
      t.signature? f ≠ some (parameters.map (·.2)))
    (returnType? : Option TypeId) (identity : String) (vars : Names VariableId → Names VariableId) :
    t.Grown (t.withFunction c name parameters returnType? identity vars) := by
  have hc : c < t.contexts.size := (Array.getElem?_eq_some_iff.mp hx).1
  have hsignature := t.signature?_withFunction c name parameters returnType? identity vars
  have hkept := Extends.withFunction hx name parameters returnType? identity vars
  have hget := withFunction_contexts hx name parameters returnType? identity vars
  have hnew : (t.withFunction c name parameters returnType? identity vars).kind? t.contexts.size =
      some (.ofFunction t.functions.size) := by
    rw [kind?, hget, if_pos rfl]
    rfl
  have hname : ((t.withFunction c name parameters returnType? identity vars).declarations c
      ).functions.lookup name = some ((x.functions.lookup name).getD [] ++ [t.functions.size]) := by
    rw [declarations, hget, if_neg hc.ne, if_pos rfl]
    exact (x.lookup_aroundFunction name name _ t.contexts.size).trans (if_pos rfl)
  refine ⟨hkept, h.extend hkept (fun d k hk hn => ?_) (fun i y hy hn => ?_)
    fun f y hy hold => ?_, memo_child hx hget rfl rfl⟩
  · obtain rfl := eq_size_of_new hx hget hk hn
    refine .ofFunction (f := t.functions.size) ?_ hc hnew Array.getElem?_push_size rfl ?_ hsignature
    · rw [links_parent, hget, if_pos rfl]
      rfl
    · rw [hname]
      exact List.mem_append_right _ List.mem_cons_self
  · cases hn.symm.trans hy
  · obtain ⟨rfl, rfl⟩ := eq_of_getElem?_push hy hold
    refine ⟨hnew, fun g z hz hp hname hs => ?_⟩
    cases hg : t.functions[g]? with
    | none => exact (eq_of_getElem?_push hz hg).1.symm
    | some z' =>
      -- a function that was there has other parameter types
      cases (hkept.function hg).symm.trans hz
      obtain ⟨-, hmem, s, hsg⟩ := h.function_placed hg
      rw [← hp, ← hname, declarations_eq hx] at hmem
      rw [hsignature, hkept.signature hsg] at hs
      exact absurd (hsg.trans hs.symm) (hn g hmem)

/-- **The table at the start.** -/
theorem start_orderly : SymbolTable.start.Orderly where
  root := rfl
  top := rfl
  placed {c k} hk hc := by
    cases c with
    | zero => exact absurd rfl hc
    | succ c => cases hk
  type {i x} hx hu := by
    have hnone : ∀ x ∈ SymbolTable.start.types, x.kind ≠ .user := by decide
    exact absurd hu (hnone x (Array.mem_of_getElem? hx))
  builtIn {i j x y} hx hy _ hk := by
    have hnodup : (SymbolTable.start.types.toList.map (·.kind)).Nodup := by decide
    have hkind {i : TypeId} {x : TypeInfo} (hx : SymbolTable.start.types[i]? = some x) :
        (SymbolTable.start.types.toList.map (·.kind))[i]? = some x.kind := by
      rw [List.getElem?_map, Array.getElem?_toList, hx]
      rfl
    have hlt := (List.getElem?_eq_some_iff.mp (hkind hx)).1
    exact (List.getElem?_inj hlt hnodup).mp (by rw [hkind hx, hkind hy, hk])
  function {f x} hf := by cases hf
  distinct {f g x y} hf := by cases hf

end SymbolTable

open Scoping in
/-- **A table grows by a declaration.** -/
theorem Change.run_grown {ch : Change} (hd : ch.IsDeclaration) {t : SymbolTable} (ht : t.Sound)
    (h : t.Orderly) : Ends ch.run t (fun _ => t.Grown) fun _ => True := by
  cases ch with
  | newType c name =>
    refine .bind (declareType_ends (Q := fun _ => t.Grown)
      (fun _ hx => ht.closed.not_child hx) (fun _ _ hx hn => h.withType hx hn _) trivial) ?_
    exact fun _ _ h => .pure h
  | supertype i s => exact .modifyType fun _ _ => h.supertype i _
  | newVariable c name type? category =>
    refine .bind (declareVariable_ends (Q := fun _ => t.Grown)
      (fun _ _ _ => h.withVariable c name type? category) trivial) ?_
    exact fun _ _ h => .pure h
  | newMember i name type? =>
    refine .bind (Q := fun _ => t.Grown) ?_ fun _ _ h => .pure h
    refine .bind (Q := fun _ u => u = t) (.askType fun _ _ => rfl) ?_
    rintro info t rfl
    exact .withContext fun _ _ => declareVariable_ends (fun _ _ _ => h.withVariable ..) trivial
  | newFunction c name parameters returnType? =>
    refine .bind (declareFunction_ends (Q := fun _ => t.Grown)
      (fun _ hx => ht.closed.not_child hx)
      fun _ _ _ hx hn => h.withFunction hx hn returnType? _ _) ?_
    exact fun _ _ h => .pure h
  | newContext | newLabel | hint | link | merge | adoptHints | detach => exact hd.elim

end Codegen
