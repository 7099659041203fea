import Codegen.Proofs.Symbol.Spelling
import Codegen.Proofs.Value.Arena

/-!
# Mangles of contexts

* `SymbolTable.Mangles`: the mangle of a context, from the outermost context inwards;
* `SymbolTable.Recalls`: a table that only remembers more mangles;
* `SymbolTable.Remembered`: **what a table remembers is right**;
* `mangle_spec`: the answer to a question for a mangle, and what is remembered of it;
* `SymbolTable.Nameable`, `mangle_ok`: there is an answer.
-/

namespace Codegen

namespace SymbolTable

variable {t u : SymbolTable} {c d p : ContextId} {k : ContextKind} {m m' : Mangle} {fuel : Nat}

/-- **The mangle of a context**, from the outermost context inwards. -/
inductive Mangles (t : SymbolTable) : ContextId → Mangle → Prop
  | outermost {c : ContextId} {k : ContextKind} {m : Mangle} (top : t.links.parent? c = none)
    (kind : t.kind? c = some k) (own : t.extendMangle .start k = .ok m) : Mangles t c m
  | inner {c p : ContextId} {k : ContextKind} {m m' : Mangle} (parent : t.links.parent? c = some p)
    (outer : Mangles t p m) (kind : t.kind? c = some k) (own : t.extendMangle m k = .ok m') :
    Mangles t c m'

theorem Mangles.unique (h : t.Mangles c m) (h' : t.Mangles c m') : m = m' := by
  induction h generalizing m' with
  | outermost top kind own =>
    cases h' with
    | outermost _ kind' own' =>
      cases kind.symm.trans kind'
      exact Except.ok.inj (own.symm.trans own')
    | inner parent => cases top.symm.trans parent
  | inner parent _ kind own ih =>
    cases h' with
    | outermost top => cases top.symm.trans parent
    | inner parent' outer' kind' own' =>
      cases kind.symm.trans kind'
      cases parent.symm.trans parent'
      cases ih outer'
      exact Except.ok.inj (own.symm.trans own')

/-! ## Names that stay -/

theorem ascent_unique {l : Links} {cs ds : List ContextId} (h : l.Ascent c cs)
    (h' : l.Ascent c ds) : cs = ds := by
  induction h generalizing ds with
  | root hp =>
    cases h' with
    | root => rfl
    | up hp' => cases hp.symm.trans hp'
  | up hp _ ih =>
    cases h' with
    | root hp' => cases hp'.symm.trans hp
    | up hp' h' =>
      cases hp.symm.trans hp'
      rw [ih h']

theorem mapM_ok_of_ok {α β : Type} {f g : α → Except Fault β} {l : List α} {bs : List β}
    (hfg : ∀ a b, f a = .ok b → g a = .ok b) (h : l.mapM f = .ok bs) : l.mapM g = .ok bs := by
  induction l generalizing bs with
  | nil => exact h
  | cons a l ih =>
    rw [List.mapM_cons] at h ⊢
    obtain ⟨b, hb, h⟩ := Arena.bind_eq_ok.mp h
    obtain ⟨bs', hbs, h⟩ := Arena.bind_eq_ok.mp h
    exact Arena.bind_eq_ok.mpr ⟨b, hfg a b hb, Arena.bind_eq_ok.mpr ⟨bs', ih hbs, h⟩⟩

theorem filterMapM_ok_of_ok {α β : Type} {f g : α → Except Fault (Option β)} {l : List α}
    {bs : List β} (hfg : ∀ a b, f a = .ok b → g a = .ok b) (h : l.filterMapM f = .ok bs) :
    l.filterMapM g = .ok bs := by
  induction l generalizing bs with
  | nil => exact h
  | cons a l ih =>
    rw [List.filterMapM_cons] at h ⊢
    obtain ⟨b, hb, h⟩ := Arena.bind_eq_ok.mp h
    refine Arena.bind_eq_ok.mpr ⟨b, hfg a b hb, ?_⟩
    cases b with
    | none => exact ih h
    | some b =>
      obtain ⟨bs', hbs, h⟩ := Arena.bind_eq_ok.mp h
      exact Arena.bind_eq_ok.mpr ⟨bs', ih hbs, h⟩

theorem lt_size_of_mem_enclosing (ht : t.links.Forest) {cs : List ContextId}
    (h : t.enclosing c = .ok cs) (hd : d ∈ cs) : d < t.contexts.size := by
  have hc := lt_size_of_enclosing h
  obtain ⟨ds, hds, ha⟩ := enclosing_ascent ht hc
  cases hds.symm.trans h
  exact lt_size_of_inside ht hc (ha.mem_iff.mp hd)

namespace Extends

variable (e : t.Extends u)
include e

theorem exists_context {c : ContextId} (h : c < t.contexts.size) : c < u.contexts.size := by
  obtain ⟨y, hy, -⟩ := e.context (Array.getElem?_eq_getElem h)
  exact (Array.getElem?_eq_some_iff.mp hy).1

theorem ascent (ht : t.links.Forest) {c : ContextId} {cs : List ContextId}
    (hc : c < t.contexts.size) (h : t.links.Ascent c cs) : u.links.Ascent c cs := by
  induction h with
  | root hp =>
    obtain ⟨y, hy, hg⟩ := e.context (Array.getElem?_eq_getElem hc)
    refine .root ?_
    rw [links_parent_of hy, hg.parent, ← links_parent_of (Array.getElem?_eq_getElem hc), hp]
  | up hp _ ih => exact .up (e.parent hp) (ih (lt_size_of_under ht hp))

theorem enclosing (ht : t.links.Forest) (hu : u.links.Forest) {c : ContextId}
    {cs : List ContextId} (h : t.enclosing c = .ok cs) : u.enclosing c = .ok cs := by
  have hc := lt_size_of_enclosing h
  obtain ⟨ds, hds, ha⟩ := enclosing_ascent ht hc
  cases hds.symm.trans h
  obtain ⟨es, hes, hb⟩ := enclosing_ascent hu (e.exists_context hc)
  rw [hes, ascent_unique (e.ascent ht hc ha) hb]

theorem typeInfo {i : TypeId} {x : TypeInfo} (h : t.typeInfo i = .ok x) :
    ∃ s, u.typeInfo i = .ok { x with supertypes := s } := by
  have hx : t.types[i]? = some x := by
    rw [SymbolTable.typeInfo] at h
    cases hi : t.types[i]? <;> rw [hi] at h <;> cases h
    rfl
  obtain ⟨s, hs⟩ := e.type hx
  exact ⟨s, typeInfo_eq hs⟩

theorem nameAnswer {i : TypeId} {n : String}
    (h : (return (← t.typeInfo i).name : Except Fault String) = .ok n) :
    (return (← u.typeInfo i).name : Except Fault String) = .ok n := by
  obtain ⟨x, hx, h⟩ := Arena.bind_eq_ok.mp h
  obtain ⟨s, hs⟩ := e.typeInfo hx
  rw [hs, ← h]
  rfl

theorem owner?_eq {c : ContextId} (hc : c < t.contexts.size) : u.owner? c = t.owner? c := by
  obtain ⟨k, hk⟩ := exists_kind? hc
  rw [owner?, owner?, hk, e.kind hk]

theorem typeChain (ht : t.links.Forest) (hu : u.links.Forest) {i : TypeId} {is : List TypeId}
    (h : t.typeChain i = .ok is) : u.typeChain i = .ok is := by
  obtain ⟨x, hx, h⟩ := Arena.bind_eq_ok.mp h
  obtain ⟨cs, hcs, h⟩ := Arena.bind_eq_ok.mp h
  obtain ⟨s, hs⟩ := e.typeInfo hx
  have howners : cs.filterMap u.owner? = cs.filterMap t.owner? :=
    List.filterMap_congr fun c hc => e.owner?_eq (lt_size_of_mem_enclosing ht hcs hc)
  rw [SymbolTable.typeChain, hs]
  change (u.enclosing x.context >>= fun cs => _) = _
  rw [e.enclosing ht hu hcs]
  change (pure (if (cs.filterMap u.owner?).isEmpty then [i] else (cs.filterMap u.owner?).reverse) :
    Except Fault (List TypeId)) = _
  rw [howners]
  exact h

theorem spelling (ht : t.links.Forest) (hu : u.links.Forest) {i : TypeId} {s : Spelling}
    (h : t.spelling i = .ok s) : u.spelling i = .ok s := by
  obtain ⟨x, hx, -⟩ := Arena.bind_eq_ok.mp h
  obtain ⟨s', hs⟩ := e.typeInfo hx
  rw [spelling_eq hx] at h
  rw [spelling_eq hs]
  change x.code?.elim _ _ = _
  cases hc : x.code? with
  | some code =>
    rw [hc] at h
    exact h
  | none =>
    rw [hc] at h
    obtain ⟨is, his, h⟩ := Arena.bind_eq_ok.mp h
    obtain ⟨ns, hns, h⟩ := Arena.bind_eq_ok.mp h
    have hns' := mapM_ok_of_ok (fun i n => e.nameAnswer (i := i) (n := n)) hns
    exact Arena.bind_eq_ok.mpr ⟨is, e.typeChain ht hu his, Arena.bind_eq_ok.mpr ⟨ns, hns', h⟩⟩

theorem functionInfo {f : FunctionId} {x : FunctionInfo} (h : t.functionInfo f = .ok x) :
    u.functionInfo f = .ok x := by
  rw [SymbolTable.functionInfo] at h ⊢
  cases hf : t.functions[f]? with
  | none =>
    rw [hf] at h
    cases h
  | some y => rwa [e.function hf, ← hf]

theorem typeAnswer {v : VariableId} {i : Option TypeId}
    (h : (return (← t.variableInfo v).type? : Except Fault (Option TypeId)) = .ok i) :
    (return (← u.variableInfo v).type? : Except Fault (Option TypeId)) = .ok i := by
  rw [SymbolTable.variableInfo] at h ⊢
  cases hv : t.vars[v]? with
  | none =>
    rw [hv] at h
    cases h
  | some y => rwa [e.var hv, ← hv]

theorem spellingAnswer (ht : t.links.Forest) (hu : u.links.Forest) {i : TypeId}
    {x : TypeId × Spelling}
    (h : (return (i, ← t.spelling i) : Except Fault (TypeId × Spelling)) = .ok x) :
    (return (i, ← u.spelling i) : Except Fault (TypeId × Spelling)) = .ok x := by
  obtain ⟨s, hs, h⟩ := Arena.bind_eq_ok.mp h
  exact Arena.bind_eq_ok.mpr ⟨s, e.spelling ht hu hs, h⟩

/-- **What a context adds to a mangle stays the same.** -/
theorem extendMangle (ht : t.links.Forest) (hu : u.links.Forest) {m m' : Mangle} {k : ContextKind}
    (h : t.extendMangle m k = .ok m') : u.extendMangle m k = .ok m' := by
  cases k with
  | global | scope => exact h
  | ofType i =>
    obtain ⟨x, hx, h⟩ := Arena.bind_eq_ok.mp h
    obtain ⟨s, hs⟩ := e.typeInfo hx
    rw [SymbolTable.extendMangle, hs, ← h]
    rfl
  | ofFunction f =>
    obtain ⟨x, hx, h⟩ := Arena.bind_eq_ok.mp h
    obtain ⟨is, his, h⟩ := Arena.bind_eq_ok.mp h
    obtain ⟨ts, hts, h⟩ := Arena.bind_eq_ok.mp h
    have hfunction := e.functionInfo hx
    have his' := filterMapM_ok_of_ok (fun v i => e.typeAnswer (v := v) (i := i)) his
    have hts' := mapM_ok_of_ok (fun i s => e.spellingAnswer ht hu (i := i) (x := s)) hts
    refine Arena.bind_eq_ok.mpr ⟨x, hfunction, Arena.bind_eq_ok.mpr ⟨is, his',
      Arena.bind_eq_ok.mpr ⟨ts, hts', ?_⟩⟩⟩
    cases hr : x.returnType? with
    | none =>
      rw [hr] at h
      exact h
    | some i =>
      rw [hr] at h
      obtain ⟨s, hs, h⟩ := Arena.bind_eq_ok.mp h
      exact Arena.bind_eq_ok.mpr ⟨s, e.spelling ht hu hs, h⟩

/-- **Mangles stay the same.** -/
theorem mangles (ht : t.links.Forest) (hu : u.links.Forest) {c : ContextId} {m : Mangle}
    (h : t.Mangles c m) : u.Mangles c m := by
  induction h with
  | outermost top kind own =>
    obtain ⟨x, hx, -⟩ := Option.map_eq_some_iff.mp kind
    obtain ⟨y, hy, hg⟩ := e.context hx
    refine .outermost ?_ (e.kind kind) (e.extendMangle ht hu own)
    rw [links_parent_of hy, hg.parent, ← links_parent_of hx, top]
  | inner parent _ kind own ih =>
    exact .inner (e.parent parent) ih (e.kind kind) (e.extendMangle ht hu own)

end Extends

/-! ## What is remembered -/

/-- A context without its mangle. -/
def forget (x : Context) : Context := { x with mangle? := none }

/-- **A table that only remembers other mangles.** -/
structure Recalls (t u : SymbolTable) : Prop where
  size : u.contexts.size = t.contexts.size
  context : ∀ c : ContextId, u.contexts[c]?.map forget = t.contexts[c]?.map forget
  types : u.types = t.types
  functions : u.functions = t.functions
  vars : u.vars = t.vars

namespace Recalls

theorem refl (t : SymbolTable) : t.Recalls t := ⟨rfl, fun _ => rfl, rfl, rfl, rfl⟩

theorem remember (h : t.Recalls u) (c : ContextId) (m : Mangle) :
    t.Recalls { u with contexts := u.contexts.modify c ({ · with mangle? := some m }) } where
  size := by rw [← h.size, Array.size_modify]
  context d := by
    rw [← h.context d, Array.getElem?_modify]
    split
    · cases u.contexts[d]? <;> rfl
    · rfl
  types := h.types
  functions := h.functions
  vars := h.vars

theorem links (h : t.Recalls u) : u.links = t.links := by
  refine Links.ext (funext fun c => ?_) (funext fun c => ?_)
  all_goals
    have hc := h.context c
    simp only [SymbolTable.links]
    cases hu : u.contexts[c]? <;> cases ht : t.contexts[c]? <;> simp_all [forget]

theorem kind? (h : t.Recalls u) : u.kind? = t.kind? := by
  funext c
  have hc := h.context c
  simp only [SymbolTable.kind?]
  cases hu : u.contexts[c]? <;> cases ht : t.contexts[c]? <;> simp_all [forget]

end Recalls

/-- **What a table remembers is right.** -/
def Remembered (t : SymbolTable) : Prop :=
  ∀ {c : ContextId} {x : Context} {m : Mangle}, t.contexts[c]? = some x → x.mangle? = some m →
    t.Mangles c m

namespace Recalls

theorem symm (h : t.Recalls u) : u.Recalls t :=
  ⟨h.size.symm, fun c => (h.context c).symm, h.types.symm, h.functions.symm, h.vars.symm⟩

/-- A table that only remembers other mangles has all that the table has. -/
theorem toExtends (h : t.Recalls u) : t.Extends u where
  context {c x} hx := by
    have hc := h.context c
    rw [hx] at hc
    obtain ⟨y, hy, hf⟩ := Option.map_eq_some_iff.mp hc
    refine ⟨y, hy, ?_⟩
    simp only [forget, Context.mk.injEq] at hf
    obtain ⟨hkind, -, hparent, -, htypes, hfunctions, -⟩ := hf
    exact ⟨hkind, hparent, fun h => htypes ▸ h, fun h => hfunctions ▸ h⟩
  type hx := ⟨_, h.types ▸ hx⟩
  function hx := h.functions ▸ hx
  var hx := h.vars ▸ hx

theorem forest (h : t.Recalls u) (ht : t.links.Forest) : u.links.Forest := h.links ▸ ht

end Recalls

theorem context_eq {x : Context} (h : t.context c = .ok x) : t.contexts[c]? = some x := by
  rw [context] at h
  cases hx : t.contexts[c]? <;> rw [hx] at h <;> cases h
  rfl

/-! ## Questions for mangles -/

theorem mangleWithin_succ {x : Context} (hx : t.contexts[c]? = some x) :
    t.mangleWithin (fuel + 1) c =
      match x.mangle? with
      | some m => .ok (m, t)
      | none =>
        (match x.parent? with
          | some p => t.mangleWithin fuel p
          | none => .ok (.start, t)) >>= fun r => r.2.extendMangle r.1 x.kind >>= fun m =>
            .ok (m, { r.2 with
              contexts := r.2.contexts.modify c ({ · with mangle? := some m }) }) := by
  rw [mangleWithin, context, hx]
  change (match x.mangle? with | some m => _ | none => _) = _
  cases x.mangle? with
  | some m => rfl
  | none =>
    cases x.parent? with
    | some p => rfl
    | none => rfl

/-- **The answer to a question for a mangle**, and what is remembered of it. -/
theorem mangleWithin_spec (ht : t.links.Forest) (hr : t.Remembered)
    (h : t.mangleWithin fuel c = .ok (m, u)) :
    t.Mangles c m ∧ t.Recalls u ∧ ∀ {d : ContextId} {y : Context} {m' : Mangle},
      u.contexts[d]? = some y → y.mangle? = some m' → t.Mangles d m' := by
  induction fuel generalizing c m u with
  | zero => cases h
  | succ fuel ih =>
    obtain ⟨x, hx, -⟩ := Arena.bind_eq_ok.mp h
    have hx := context_eq hx
    have hkind : t.kind? c = some x.kind := by rw [kind?, hx]; rfl
    rw [mangleWithin_succ hx] at h
    cases hm : x.mangle? with
    | some m₀ =>
      rw [hm] at h
      cases h
      exact ⟨hr hx hm, .refl t, hr⟩
    | none =>
      rw [hm] at h
      obtain ⟨⟨outer, v⟩, hv, h⟩ := Arena.bind_eq_ok.mp h
      obtain ⟨m₁, hm₁, h⟩ := Arena.bind_eq_ok.mp h
      cases h
      -- the outer mangle, from the context around this one
      have houter : t.Recalls v ∧ (∀ {d : ContextId} {y : Context} {m' : Mangle},
          v.contexts[d]? = some y → y.mangle? = some m' → t.Mangles d m') ∧
          (t.extendMangle outer x.kind = .ok m → t.Mangles c m) := by
        cases hp : x.parent? with
        | none =>
          rw [hp] at hv
          cases hv
          exact ⟨.refl t, hr, .outermost ((links_parent_of hx).trans hp) hkind⟩
        | some p =>
          rw [hp] at hv
          obtain ⟨hmp, hrecalls, hrest⟩ := ih hv
          exact ⟨hrecalls, hrest, .inner ((links_parent_of hx).trans hp) hmp hkind⟩
      obtain ⟨hrecalls, hrest, hmangles⟩ := houter
      have hown := hrecalls.symm.toExtends.extendMangle (hrecalls.forest ht) ht hm₁
      refine ⟨hmangles hown, hrecalls.remember c m, fun {d y m'} hy hm' => ?_⟩
      rw [Array.getElem?_modify] at hy
      split at hy
      next hd =>
        obtain ⟨z, -, rfl⟩ := Option.map_eq_some_iff.mp hy
        cases hm'
        exact hd ▸ hmangles hown
      next => exact hrest hy hm'

theorem mangle_spec (ht : t.links.Forest) (hr : t.Remembered) (h : t.mangle c = .ok (m, u)) :
    t.Mangles c m ∧ t.Recalls u ∧ u.Remembered := by
  obtain ⟨hm, hrecalls, hrest⟩ := mangleWithin_spec ht hr h
  exact ⟨hm, hrecalls, fun hy hm' =>
    hrecalls.toExtends.mangles ht (hrecalls.forest ht) (hrest hy hm')⟩

theorem Orderly.parent_lt (h : t.Orderly) (hk : t.kind? c = some k)
    (hp : t.links.parent? c = some p) : p < c := by
  have hc : c ≠ globalContext := by
    rintro rfl
    cases h.top.symm.trans hp
  cases h.placed hk hc with
  | ofType parent lt =>
    cases parent.symm.trans hp
    exact lt
  | ofFunction parent lt =>
    cases parent.symm.trans hp
    exact lt

/-- **There is an answer** if each context can add to a mangle. -/
theorem mangle_ok (ho : t.Orderly) (ht : t.links.Forest) (hr : t.Remembered)
    (hown : ∀ c k m, t.kind? c = some k → ∃ m', t.extendMangle m k = .ok m')
    (hc : c < t.contexts.size) : ∃ m u, t.mangle c = .ok (m, u) := by
  have key (fuel : Nat) (c : ContextId) (hf : c < fuel) (hc : c < t.contexts.size) :
      ∃ m u, t.mangleWithin fuel c = .ok (m, u) := by
    induction fuel generalizing c with
    | zero => cases hf
    | succ fuel ih =>
      obtain ⟨k, hk⟩ := exists_kind? hc
      obtain ⟨x, hx, rfl⟩ := Option.map_eq_some_iff.mp hk
      rw [mangleWithin_succ hx]
      cases x.mangle? with
      | some m => exact ⟨m, t, rfl⟩
      | none =>
        -- the parent comes before the context
        have houter : ∃ m v, (match x.parent? with
            | some p => t.mangleWithin fuel p
            | none => .ok (.start, t)) = .ok (m, v) ∧ t.Recalls v := by
          cases hp : x.parent? with
          | none => exact ⟨_, _, rfl, .refl t⟩
          | some p =>
            have hunder : t.links.Under c p := (links_parent_of hx).trans hp
            have hpc := ho.parent_lt hk hunder
            obtain ⟨m, v, hv⟩ := ih p (hpc.trans_le (Nat.le_of_lt_succ hf))
              (lt_size_of_under ht hunder)
            exact ⟨m, v, hv, (mangleWithin_spec ht hr hv).2.1⟩
        obtain ⟨m, v, hv, hrecalls⟩ := houter
        obtain ⟨m', hm'⟩ := hown c x.kind m hk
        exact ⟨m', _, Arena.bind_eq_ok.mpr ⟨(m, v), hv, Arena.bind_eq_ok.mpr
          ⟨m', hrecalls.toExtends.extendMangle ht (hrecalls.forest ht) hm', rfl⟩⟩⟩
  exact key _ _ (Nat.lt_succ_of_lt hc) hc

end SymbolTable

end Codegen
