import Codegen.Proofs.Symbol.Grown

/-!
# Types and their contexts

Whatever changes are made, the built-in types stay the first ones and no other type is built in; the
global context stays what it is, and so does the context of the members of a type.

* `SymbolTable.Typed`: **the types of a table and their contexts**;
* `Typed.kind_eq`, `eq_of_kind_eq`, `kind?_context`: what is known of each type;
* `Typed.congr`, `withType`: tables with as many types, and with one more;
* `Scoping.createContext_typed`, `merge_typed`, ...: changes that make no types;
* `Reached.typed`: **all tables that changes lead to are so**.
-/

namespace Codegen

namespace SymbolTable

variable {t u : SymbolTable} {i j : TypeId} {x y : TypeInfo}

/-- What the types are, and the contexts of their members. -/
def profile (t : SymbolTable) : Array (TypeKind × ContextId) :=
  t.types.map fun x => (x.kind, x.context)

/-- **The built-in types come first**, the types of the program have contexts of their own, and the
global context belongs to no type. -/
structure Typed (t : SymbolTable) : Prop where
  kinds : ∃ n, t.profile.toList.map (·.1) = Primitive.all.map (·.2) ++ List.replicate n .user
  members : ∀ i c, t.profile[i]? = some (.user, c) → t.kind? c = some (.ofType i)
  root : t.kind? globalContext = some .global

theorem Typed.kind_eq (h : t.Typed) (hx : t.types[i]? = some x) :
    (i < 11 ∧ (Primitive.all.map (·.2))[i]? = some x.kind) ∨ (11 ≤ i ∧ x.kind = .user) := by
  obtain ⟨n, hn⟩ := h.kinds
  have hi : (t.profile.toList.map (·.1))[i]? = some x.kind := by
    simp [profile, hx]
  rw [hn, List.getElem?_append] at hi
  split at hi
  next hlt => exact .inl ⟨hlt, hi⟩
  next hge => exact .inr ⟨Nat.not_lt.mp hge, (List.mem_replicate.mp (List.mem_of_getElem? hi)).2⟩

theorem Typed.eq_of_kind_eq (h : t.Typed) (hx : t.types[i]? = some x) (hy : t.types[j]? = some y)
    (hu : x.kind ≠ .user) (he : x.kind = y.kind) : i = j := by
  rcases h.kind_eq hx with ⟨hi, hkind⟩ | ⟨-, huser⟩
  · rcases h.kind_eq hy with ⟨-, hkind'⟩ | ⟨-, huser⟩
    · have hnodup : (Primitive.all.map (·.2)).Nodup := by decide
      exact (List.getElem?_inj hi hnodup).mp (hkind.trans (he ▸ hkind'.symm))
    · exact (hu (he.trans huser)).elim
  · exact (hu huser).elim

theorem Typed.kind?_context (h : t.Typed) (hx : t.types[i]? = some x) (hu : x.kind = .user) :
    t.kind? x.context = some (.ofType i) :=
  h.members i x.context (by rw [profile, Array.getElem?_map, hx, Option.map_some, hu])

theorem Typed.congr (h : t.Typed) (hp : u.profile = t.profile)
    (hk : ∀ c k, t.kind? c = some k → u.kind? c = some k) : u.Typed :=
  ⟨hp ▸ h.kinds, fun i c hi => hk _ _ (h.members i c (hp ▸ hi)), hk _ _ h.root⟩

theorem map_kind_modify {xs : Array Context} {k : Context → Context} (c d : ContextId)
    (hk : ∀ x, (k x).kind = x.kind) :
    (xs.modify c k)[d]?.map (·.kind) = xs[d]?.map (·.kind) := by
  rw [Array.getElem?_modify]
  split
  · cases xs[d]? <;> simp [hk]
  · rfl

/-- **A new type** is one of the program, with a context of its own. -/
theorem Typed.withType (h : t.Typed) (c : ContextId) (name identity : String) :
    (t.withType c name identity).Typed := by
  have hkind (d : ContextId) : (t.withType c name identity).kind? d =
      if d = t.contexts.size then some (.ofType t.types.size) else t.kind? d := by
    refine (map_kind_modify (k := fun k => { k with types := k.types.put name t.types.size }) c d
      fun _ => rfl).trans ?_
    rw [getElem?_extended, kind?]
    split
    · rfl
    · split
      · cases t.contexts[d]? <;> rfl
      · rfl
  have hold {d : ContextId} {k : ContextKind} (hd : t.kind? d = some k) :
      (t.withType c name identity).kind? d = some k := by
    rw [hkind, if_neg (lt_size_of_kind? hd).ne, hd]
  have hprofile : (t.withType c name identity).profile =
      t.profile.push (.user, t.contexts.size) := Array.map_push
  refine ⟨?_, fun i d hi => ?_, hold h.root⟩
  · obtain ⟨n, hn⟩ := h.kinds
    exact ⟨n + 1, by simp [hprofile, hn, List.replicate_succ']⟩
  · rw [hprofile, Array.getElem?_push] at hi
    split at hi
    next hsize =>
      cases hi
      rw [hkind, if_pos rfl, hsize, profile, Array.size_map]
    next => exact hold (h.members i d hi)

theorem start_typed : SymbolTable.start.Typed where
  kinds := ⟨0, by decide +kernel⟩
  members i c hi := by
    have hnone : ∀ p ∈ SymbolTable.start.profile, p.1 ≠ .user := by decide +kernel
    exact absurd rfl (hnone _ (Array.mem_of_getElem? hi))
  root := rfl

end SymbolTable

/-! ## Changes that make no types -/

namespace Scoping

open SymbolTable (Typed)

variable {c d p : ContextId}

theorem modifyContext_typed {k : Context → Context} (hk : ∀ x, (k x).kind = x.kind) :
    Keeps Typed (modifyContext c k) := fun _ h => .modifyContext fun _ _ =>
  h.congr rfl fun d _ hd => (SymbolTable.map_kind_modify c d hk).trans hd

theorem modifyVariable_typed {v : VariableId} {k : VariableInfo → VariableInfo} :
    Keeps Typed (modifyVariable v k) := fun _ h => .modifyVariable (h.congr rfl fun _ _ => id)

theorem forgetMangles_typed (c : ContextId) : Keeps Typed (forgetMangles c) := by
  refine .bind .expect fun _ => .modify fun t h => h.congr rfl fun d k hd => ?_
  have hfold (cs : List ContextId) (xs : Array Context) :
      (cs.foldl (fun xs c => xs.modify c ({ · with mangle? := none })) xs)[d]?.map (·.kind) =
        xs[d]?.map (·.kind) := by
    induction cs generalizing xs with
    | nil => rfl
    | cons c cs ih => exact (ih _).trans (SymbolTable.map_kind_modify c d fun _ => rfl)
  exact (hfold _ _).trans hd

theorem adoptHints_typed (c : ContextId) : Keeps Typed (adoptHints c) :=
  .bind .expect fun _ => .modify fun _ h => h.congr rfl fun _ _ => id

theorem detach_typed (c : ContextId) : Keeps Typed (detach c) := by
  refine .bind .expect fun info => ?_
  have rest : Keeps Typed (do modifyContext c ({ · with parent? := none }); forgetMangles c) :=
    .bind (modifyContext_typed fun _ => rfl) fun _ => forgetMangles_typed c
  cases info.parent? with
  | none => exact rest
  | some p => exact .bind (modifyContext_typed fun _ => rfl) fun _ => rest

theorem link_typed (c p : ContextId) : Keeps Typed (link c p) := by
  refine .bind .expect fun info => ?_
  have rest : Keeps Typed (do
      modifyContext c ({ · with parent? := some p })
      modifyContext p fun k =>
        { k with children := if k.children.contains c then k.children else k.children ++ [c] }
      forgetMangles c
      adoptHints c) :=
    .bind (modifyContext_typed fun _ => rfl) fun _ => .bind (modifyContext_typed fun _ => rfl)
      fun _ => .bind (forgetMangles_typed c) fun _ => adoptHints_typed c
  cases info.parent? with
  | none => exact rest
  | some p => exact .bind (modifyContext_typed fun _ => rfl) fun _ => rest

theorem createContext_typed (kind : ContextKind) (p : ContextId) :
    Keeps Typed (createContext kind p) := by
  refine .bind .expect fun info => .bind (modifyContext_typed fun _ => rfl) fun _ => .bind .get
    fun _ => .bind (.modify fun t h => h.congr rfl fun d k hd => ?_) fun _ =>
      .bind (link_typed _ p) fun _ => .pure _
  rw [SymbolTable.kind?, Array.getElem?_push,
    if_neg (SymbolTable.lt_size_of_kind? hd).ne]
  exact hd

theorem declareVariable_typed (c : ContextId) (name : String) (type? : Option TypeId)
    (category : VariableCategory) : Keeps Typed (declareVariable c name type? category) := by
  refine .bind .expect fun x => ?_
  dsimp only
  split
  · exact .refuse_bind _ _
  · exact .bind .get fun _ => .bind (.modify fun _ h => h.congr rfl fun _ _ => id) fun _ =>
      .bind (modifyContext_typed fun _ => rfl) fun _ => .pure _

theorem declareMember_typed (i : TypeId) (name : String) (type? : Option TypeId) :
    Keeps Typed (declareMember i name type?) :=
  .bind .expect fun _ => .bind .expect fun _ => declareVariable_typed _ name type? _

theorem addSupertype_typed (i supertype : TypeId) : Keeps Typed (addSupertype i supertype) :=
  fun t h => .modifyType fun x _ => h.congr (Array.ext_getElem? fun j => by
    rw [SymbolTable.profile, SymbolTable.profile, Array.getElem?_map, Array.getElem?_map,
      Array.getElem?_modify]
    split
    · cases t.types[j]? <;> rfl
    · rfl) fun _ _ => id

theorem declareFunction_typed (c : ContextId) (name : String)
    (parameters : List (String × Option TypeId)) (returnType? : Option TypeId) :
    Keeps Typed (declareFunction c name parameters returnType?) := by
  refine .bind .expect fun x => .bind (.mapM fun f => .bind .expect fun _ => .mapM fun v =>
    .bind .expect fun _ => .pure _) fun signatures => ?_
  dsimp only
  split
  · exact .refuse_bind _ _
  · exact .bind .get fun _ => .bind (createContext_typed _ c) fun _ =>
      .bind (.mapM fun _ => declareVariable_typed _ _ _ _) fun _ =>
        .bind (.modify fun _ h => h.congr rfl fun _ _ => id) fun _ =>
          .bind (modifyContext_typed fun _ => rfl) fun _ => .pure _

theorem declareLabel_typed (c : ContextId) (name : String) :
    Keeps Typed (declareLabel c name) := by
  refine .bind .expect fun x => ?_
  dsimp only
  split
  · exact .refuse_bind _ _
  · exact .bind .get fun _ => .bind (.modify fun _ h => h.congr rfl fun _ _ => id) fun _ =>
      .bind (modifyContext_typed fun _ => rfl) fun _ => .pure _

theorem merge_typed (c other : ContextId) : Keeps Typed (merge c other) := by
  refine .bind .expect fun source => .bind (.forIn fun ⟨name, i⟩ => ?_) fun _ =>
    .bind (.forIn fun ⟨name, overloads⟩ => ?_) fun _ => .bind (.forIn fun ⟨name, v⟩ => ?_)
      fun _ => .bind (.forIn fun ⟨name, l⟩ => ?_) fun _ => .bind (.forIn fun child => ?_)
        fun _ => ?_
  · refine .bind (modifyContext_typed fun _ => rfl) fun _ => .bind .expect fun info =>
      .bind .expect fun members => ?_
    split
    · exact .bind (modifyContext_typed fun _ => rfl) fun _ => .pure _
    · exact .pure _
  · exact .bind (.modify fun _ h => h.congr rfl fun _ _ => id) fun _ =>
      .bind (modifyContext_typed fun _ => rfl) fun _ => .pure _
  · exact .bind (modifyContext_typed fun _ => rfl) fun _ =>
      .bind modifyVariable_typed fun _ => .pure _
  · exact .bind (modifyContext_typed fun _ => rfl) fun _ => .pure _
  · exact .bind (modifyContext_typed fun _ => rfl) fun _ =>
      .bind (modifyContext_typed fun _ => rfl) fun _ => .pure _
  · exact .bind (modifyContext_typed fun _ => rfl) fun _ => .bind (forgetMangles_typed c)
      fun _ => .bind (adoptHints_typed c) fun _ => detach_typed other

end Scoping

/-! ## All changes -/

open Scoping SymbolTable

/-- **A change of a sound table** keeps the built-in types and the contexts of the others. -/
theorem Change.run_typed {t : SymbolTable} (ch : Change) (ht : t.Sound) (h : t.Typed) :
    Ends ch.run t (fun _ => Typed) Typed := by
  cases ch with
  | newContext kind p => exact (createContext_typed kind p).discard t h
  | newType c name =>
    exact .bind (declareType_ends (Q := fun _ => Typed) (fun _ hx => ht.closed.not_child hx)
      (fun _ identity _ _ => h.withType c name identity) h) fun _ _ h => .pure h
  | supertype i s => exact addSupertype_typed i s t h
  | newVariable c name type? category =>
    exact (declareVariable_typed c name type? category).discard t h
  | newMember i name type? => exact (declareMember_typed i name type?).discard t h
  | newFunction c name parameters returnType? =>
    exact (declareFunction_typed c name parameters returnType?).discard t h
  | newLabel c name => exact (declareLabel_typed c name).discard t h
  | hint v type? => exact modifyVariable_typed t h
  | link child parent => exact link_typed child parent t h
  | merge c other => exact merge_typed c other t h
  | adoptHints c => exact adoptHints_typed c t h
  | detach c => exact detach_typed c t h

/-- **All tables that changes lead to** have the built-in types, and their other types have contexts
of their own. -/
theorem Reached.typed {t : SymbolTable} (h : Reached t) : t.Typed := by
  induction h with
  | start => exact start_typed
  | done h hf hr ih => exact (Change.run_typed _ h.sound ih).1 _ _ hr
  | refused h hf hr ih => exact (Change.run_typed _ h.sound ih).2 _ _ hr

end Codegen
