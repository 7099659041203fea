import Codegen.Proofs.Symbol.Grown
import Codegen.Proofs.Symbol.Reading

/-!
# Spellings of types

A type that a program declares is spelled by its name behind the names of the types around it. If no
function is around it, the names tell which type it is.

* `SymbolTable.owner?`, `nameOf`: the types around a type, and their names;
* `Orderly.spelling_cases`: every type has a spelling;
* `SymbolTable.Lodged`: a context which only types are around;
* `spelled_of_lodged`: **the spellings of types in such contexts tell them apart**;
* `SymbolTable.Outside`, `Orderly.spelled`: so do those of types that no function is around.
-/

namespace Codegen

namespace SymbolTable

variable {t : SymbolTable} {c d p : ContextId} {cs ds : List ContextId} {i : TypeId} {x : TypeInfo}

/-- The type whose members a context holds. -/
def owner? (t : SymbolTable) (c : ContextId) : Option TypeId :=
  match t.kind? c with
  | some (.ofType i) => some i
  | _ => none

/-- The name of a type. -/
def nameOf (t : SymbolTable) (i : TypeId) : String := t.types[i]?.elim "" (·.name)

theorem owner?_of_kind? (h : t.kind? c = some (.ofType i)) : t.owner? c = some i := by
  rw [owner?, h]

theorem kind?_of_owner? (h : t.owner? c = some i) : t.kind? c = some (.ofType i) := by
  rw [owner?] at h
  split at h
  next j hj => rw [hj, Option.some.inj h]
  next => cases h

theorem mapM_name {is : List TypeId} (h : ∀ i ∈ is, ∃ x, t.types[i]? = some x) :
    (is.mapM fun o => return (← t.typeInfo o).name) = .ok (is.map t.nameOf) := by
  induction is with
  | nil => rfl
  | cons i is ih =>
    obtain ⟨x, hx⟩ := h i List.mem_cons_self
    rw [List.mapM_cons, ih fun j hj => h j (List.mem_cons_of_mem _ hj), typeInfo_eq hx]
    simp only [List.map_cons, nameOf, hx, Option.elim_some]
    rfl

theorem spelling_eq (hx : t.typeInfo i = .ok x) :
    t.spelling i = x.code?.elim
      (do return .nested (← (← t.typeChain i).mapM fun o => return (← t.typeInfo o).name))
      fun code => .ok (.primitive code) := by
  rw [spelling, hx]
  cases hc : x.code? <;> simp only [bind, Except.bind, hc, pure, Except.pure, Option.elim]

theorem spelling_builtIn {code : Char} (hx : t.types[i]? = some x) (hc : x.code? = some code) :
    t.spelling i = .ok (.primitive code) := by
  rw [spelling_eq (typeInfo_eq hx), hc]
  rfl

/-- The spelling of a type of the program tells the types around it. -/
theorem spelling_nested (hx : t.types[i]? = some x) (hu : x.kind = .user)
    (hk : t.kind? x.context = some (.ofType i)) (hcs : t.enclosing x.context = .ok cs)
    (ha : t.links.Ascent x.context cs)
    (hex : ∀ c ∈ cs, ∀ o, t.owner? c = some o → ∃ y, t.types[o]? = some y) :
    t.spelling i = .ok (.nested ((cs.filterMap t.owner?).reverse.map t.nameOf)) := by
  have hi : i ∈ cs.filterMap t.owner? :=
    List.mem_filterMap.mpr ⟨x.context, ha.mem_iff.mpr .refl, owner?_of_kind? hk⟩
  have howners : (cs.filterMap t.owner?).isEmpty = false := by
    rw [List.isEmpty_eq_false_iff]
    exact List.ne_nil_of_mem hi
  have hcode : x.code? = none := by rw [TypeInfo.code?, hu]
  have hchain : t.typeChain i = .ok (cs.filterMap t.owner?).reverse := by
    rw [typeChain, typeInfo_eq hx]
    change (do
      let owners := (← t.enclosing x.context).filterMap t.owner?
      return if owners.isEmpty then [i] else owners.reverse) = _
    rw [hcs]
    change (.ok (if (cs.filterMap t.owner?).isEmpty then _ else _) : Except Fault _) = _
    rw [howners]
    rfl
  have hnames : ((cs.filterMap t.owner?).reverse.mapM fun o =>
      return (← t.typeInfo o).name : Except Fault (List String)) =
        .ok ((cs.filterMap t.owner?).reverse.map t.nameOf) := by
    refine mapM_name fun o ho => ?_
    obtain ⟨c, hc, hco⟩ := List.mem_filterMap.mp (List.mem_reverse.mp ho)
    exact hex c hc o hco
  rw [spelling_eq (typeInfo_eq hx), hcode, hchain]
  change (do return Spelling.nested (← _) : Except Fault Spelling) = _
  rw [hnames]
  rfl

theorem code?_eq_none (x : TypeInfo) : x.code? = none ↔ x.kind = .user := by
  rw [TypeInfo.code?]
  cases x.kind with
  | number f => cases f <;> simp
  | bool | link | user => simp

namespace Orderly

theorem eq_global (h : t.Orderly) {k : ContextKind} (hk : t.kind? c = some k)
    (hp : t.links.parent? c = none) : c = globalContext := by
  by_contra hc
  cases h.placed hk hc with
  | ofType parent => cases hp.symm.trans parent
  | ofFunction parent => cases hp.symm.trans parent

theorem exists_type (h : t.Orderly) (ho : t.owner? c = some i) :
    ∃ x, t.types[i]? = some x ∧ x.kind = .user := by
  have hk := kind?_of_owner? ho
  have hc : c ≠ globalContext := by
    rintro rfl
    cases h.root.symm.trans hk
  cases h.placed hk hc with
  | ofType _ _ kind type user =>
    cases kind.symm.trans hk
    exact ⟨_, type, user⟩
  | ofFunction _ _ kind => cases kind.symm.trans hk

theorem spelling_user (h : t.Orderly) (hx : t.types[i]? = some x) (hu : x.kind = .user)
    (hcs : t.enclosing x.context = .ok cs) (ha : t.links.Ascent x.context cs) :
    t.spelling i = .ok (.nested ((cs.filterMap t.owner?).reverse.map t.nameOf)) :=
  spelling_nested hx hu (h.type hx hu) hcs ha fun _ _ _ ho =>
    (h.exists_type ho).imp fun _ => And.left

/-- **Every type has a spelling.** -/
theorem spelling_cases (h : t.Orderly) (hs : t.Sound) (hx : t.types[i]? = some x) :
    (∃ code, x.code? = some code ∧ t.spelling i = .ok (.primitive code)) ∨
    (x.kind = .user ∧ ∃ cs, t.links.Ascent x.context cs ∧
      t.spelling i = .ok (.nested ((cs.filterMap t.owner?).reverse.map t.nameOf))) := by
  cases hc : x.code? with
  | some code => exact .inl ⟨code, rfl, spelling_builtIn hx hc⟩
  | none =>
    have hu := (code?_eq_none x).mp hc
    obtain ⟨cs, hcs, ha⟩ := enclosing_ascent hs.forest (lt_size_of_kind? (h.type hx hu))
    exact .inr ⟨hu, cs, ha, h.spelling_user hx hu hcs ha⟩

end Orderly

/-! ## Types in types -/

/-- The built-in type of a letter. -/
def kindOfCode : Char → TypeKind
  | 'a' => .number .i8
  | 'h' => .number .u8
  | 's' => .number .i16
  | 't' => .number .u16
  | 'i' => .number .i32
  | 'j' => .number .u32
  | 'x' => .number .i64
  | 'y' => .number .u64
  | 'd' => .number .decimal
  | 'b' => .bool
  | 'l' => .link
  | _ => .user

theorem kind_of_code? {code : Char} (hc : x.code? = some code) :
    x.kind = kindOfCode code ∧ x.kind ≠ .user ∧ code ∈ typeCodes := by
  rw [TypeInfo.code?] at hc
  cases hk : x.kind with
  | number f =>
    rw [hk] at hc
    cases f <;> cases hc <;> exact ⟨rfl, nofun, by decide⟩
  | bool | link =>
    rw [hk] at hc
    cases hc
    exact ⟨rfl, nofun, by decide⟩
  | user =>
    rw [hk] at hc
    cases hc

/-- **A context which only types are around**: the global one, or that of a type which such a
context knows by its name. The list tells the types, the innermost first. -/
inductive Lodged (t : SymbolTable) : ContextId → List TypeId → Prop
  | global (around : ∀ cs, t.links.Ascent globalContext cs → ∀ c ∈ cs, t.owner? c = none) :
    Lodged t globalContext []
  | ofType {c p : ContextId} {i : TypeId} {is : List TypeId} {x : TypeInfo} (h : Lodged t p is)
      (parent : t.links.parent? c = some p) (kind : t.kind? c = some (.ofType i))
      (type : t.types[i]? = some x) (user : x.kind = .user) (context : x.context = c)
      (name : (t.declarations p).types.lookup x.name = some i) : Lodged t c (i :: is)

namespace Lodged

variable {is js : List TypeId}

theorem filterMap_owner? (h : t.Lodged c is) (ha : t.links.Ascent c cs) :
    cs.filterMap t.owner? = is := by
  induction h generalizing cs with
  | global around => exact List.filterMap_eq_nil_iff.mpr (around cs ha)
  | ofType _ parent kind _ _ _ _ ih =>
    cases ha with
    | root hp => cases hp.symm.trans parent
    | up hp ha =>
      cases hp.symm.trans parent
      rw [List.filterMap_cons, owner?_of_kind? kind, ih ha]

theorem exists_type (h : t.Lodged c is) :
    ∀ o ∈ is, ∃ y, t.types[o]? = some y ∧ y.kind = .user := by
  induction h with
  | global => simp
  | ofType _ _ _ type user _ _ ih => exact List.forall_mem_cons.mpr ⟨⟨_, type, user⟩, ih⟩

/-- **The names of the types around tell which context it is.** -/
theorem inj (h : t.Lodged c is) (h' : t.Lodged d js) (he : is.map t.nameOf = js.map t.nameOf) :
    c = d := by
  induction h generalizing d js with
  | global =>
    cases h' with
    | global => rfl
    | ofType => cases he
  | ofType _ _ _ type _ context name ih =>
    cases h' with
    | global => cases he
    | ofType h' _ _ type' _ context' name' =>
      simp only [List.map_cons, List.cons.injEq, nameOf, type, type', Option.elim_some] at he
      obtain rfl := ih h' he.2
      rw [he.1, name'] at name
      cases name
      rw [← context, ← context', Option.some.inj (type.symm.trans type')]

theorem spelling_eq (h : t.Lodged x.context is) (hf : t.links.Forest) (hx : t.types[i]? = some x)
    (hu : x.kind = .user) (hk : t.kind? x.context = some (.ofType i)) :
    t.spelling i = .ok (.nested (is.reverse.map t.nameOf)) := by
  obtain ⟨cs, hcs, ha⟩ := enclosing_ascent hf (lt_size_of_kind? hk)
  have his := h.filterMap_owner? ha
  rw [← his]
  refine spelling_nested hx hu hk hcs ha fun c hc o ho => ?_
  have ho : o ∈ is := his ▸ List.mem_filterMap.mpr ⟨c, hc, ho⟩
  exact (h.exists_type o ho).imp fun _ => And.left

end Lodged

/-- A type is spelled by its letter, or by the names of the types around it. -/
theorem spelling_cases_of_lodged {s : Spelling} (hf : t.links.Forest) (hx : t.types[i]? = some x)
    (hk : x.kind = .user → t.kind? x.context = some (.ofType i))
    (hl : x.kind = .user → ∃ is, t.Lodged x.context is) (hs : t.spelling i = .ok s) :
    (∃ c, x.code? = some c ∧ s = .primitive c) ∨
      (x.kind = .user ∧ ∃ is, t.Lodged x.context is ∧ s = .nested (is.reverse.map t.nameOf)) := by
  cases hc : x.code? with
  | some c => exact .inl ⟨c, rfl, Except.ok.inj (hs.symm.trans (spelling_builtIn hx hc))⟩
  | none =>
    have hu := (code?_eq_none x).mp hc
    obtain ⟨is, his⟩ := hl hu
    have hspelling := his.spelling_eq hf hx hu (hk hu)
    exact .inr ⟨hu, is, his, Except.ok.inj (hs.symm.trans hspelling)⟩

/-- **The spellings of types that only types are around tell them apart.** -/
theorem spelled_of_lodged (hf : t.links.Forest) {P : TypeId → Prop}
    (hb : ∀ {i j : TypeId} {x y : TypeInfo}, t.types[i]? = some x → t.types[j]? = some y →
      x.kind ≠ .user → x.kind = y.kind → i = j)
    (hk : ∀ {i : TypeId} {x : TypeInfo}, t.types[i]? = some x → x.kind = .user →
      t.kind? x.context = some (.ofType i))
    (hn : ∀ (i : TypeId) (x : TypeInfo), t.types[i]? = some x → x.kind = .user → IsName x.name)
    (hP : ∀ i, P i → ∃ x, t.types[i]? = some x ∧
      (x.kind = .user → ∃ is, t.Lodged x.context is)) :
    Spelled fun i s => P i ∧ t.spelling i = .ok s := by
  have cases {i : TypeId} {s : Spelling} (hi : P i ∧ t.spelling i = .ok s) :
      ∃ x, t.types[i]? = some x ∧ ((∃ c, x.code? = some c ∧ s = .primitive c) ∨
        (x.kind = .user ∧ ∃ is, t.Lodged x.context is ∧
          s = .nested (is.reverse.map t.nameOf))) := by
    obtain ⟨x, hx, hl⟩ := hP i hi.1
    exact ⟨x, hx, spelling_cases_of_lodged hf hx (hk hx) hl hi.2⟩
  constructor
  case unique => exact fun hi hi' => Except.ok.inj (hi.2.symm.trans hi'.2)
  case injective =>
    intro i j s hi hj
    obtain ⟨x, hx, ⟨c, hc, rfl⟩ | ⟨hu, is, his, rfl⟩⟩ := cases hi <;>
      obtain ⟨y, hy, ⟨c', hc', he⟩ | ⟨hu', js, hjs, he⟩⟩ := cases hj
    · cases he
      obtain ⟨hkind, hbuiltIn, -⟩ := kind_of_code? hc
      exact hb hx hy hbuiltIn (hkind.trans (kind_of_code? hc').1.symm)
    · cases he
    · cases he
    · have hnames := Spelling.nested.inj he
      rw [List.map_reverse, List.map_reverse] at hnames
      have hcontext := his.inj hjs (List.reverse_injective hnames)
      have hkind := hk hx hu
      rw [hcontext, hk hy hu'] at hkind
      cases hkind
      rfl
  case names =>
    intro i names hi n hmem
    obtain ⟨x, -, ⟨c, -, he⟩ | ⟨-, is, his, he⟩⟩ := cases hi
    · cases he
    · cases he
      obtain ⟨o, ho, rfl⟩ := List.mem_map.mp hmem
      obtain ⟨y, hy, hyu⟩ := his.exists_type o (List.mem_reverse.mp ho)
      rw [nameOf, hy]
      exact hn o y hy hyu
  case code =>
    intro i c hi
    obtain ⟨x, -, ⟨c', hc, he⟩ | ⟨-, is, -, he⟩⟩ := cases hi
    · cases he
      exact (kind_of_code? hc).2.2
    · cases he

/-! ## Types outside functions -/

/-- Does a context belong to a function? -/
def IsFunction (t : SymbolTable) (c : ContextId) : Prop := ∃ f, t.kind? c = some (.ofFunction f)

instance (t : SymbolTable) (c : ContextId) : Decidable (t.IsFunction c) :=
  match h : t.kind? c with
  | some (.ofFunction f) => .isTrue ⟨f, h⟩
  | none | some .global | some (.ofType _) | some .scope => .isFalse fun ⟨f, hf⟩ => by
    rw [h] at hf
    cases hf

/-- **A type outside functions**: no context around its members belongs to one. -/
def Outside (t : SymbolTable) (i : TypeId) : Prop :=
  ∃ x, t.types[i]? = some x ∧ ∃ cs, t.enclosing x.context = .ok cs ∧ ∀ c ∈ cs, ¬ t.IsFunction c

instance (t : SymbolTable) (i : TypeId) : Decidable (t.Outside i) :=
  decidable_of_iff (t.types[i]?.any fun x => match t.enclosing x.context with
    | .ok cs => decide (∀ c ∈ cs, ¬ t.IsFunction c)
    | .error _ => false) <| by
    rw [Outside]
    cases t.types[i]? with
    | none => simp
    | some x => cases h : t.enclosing x.context <;> simp [h]

theorem Outside.lt (h : t.Outside i) : i < t.types.size := by
  obtain ⟨x, hx, -⟩ := h
  exact (Array.getElem?_eq_some_iff.mp hx).1

theorem Outside.inside (h : t.Outside i) (hs : t.Sound) :
    ∃ x, t.types[i]? = some x ∧ ∀ c, t.links.Inside x.context c → ¬ t.IsFunction c := by
  obtain ⟨x, hx, cs, hcs, hf⟩ := h
  refine ⟨x, hx, fun c hc => hf c ?_⟩
  obtain ⟨ds, hds, ha⟩ := enclosing_ascent hs.forest (lt_size_of_enclosing hcs)
  cases hds.symm.trans hcs
  exact ha.mem_iff.mpr hc

/-- On the way up from a type outside functions there are only types. -/
theorem Orderly.lodged (h : t.Orderly) (hs : t.Sound) {k : ContextKind} (hk : t.kind? c = some k)
    (ha : t.links.Ascent c cs) (hcf : ∀ q, t.links.Inside c q → ¬ t.IsFunction q) :
    ∃ is, t.Lodged c is := by
  induction ha generalizing k with
  | @root c hp =>
    obtain rfl := h.eq_global hk hp
    refine ⟨[], .global fun cs ha c hc => ?_⟩
    cases ha with
    | root =>
      obtain rfl := List.mem_singleton.mp hc
      rw [owner?, h.root]
    | up hp' => cases hp.symm.trans hp'
  | @up c p cs hp hpc ih =>
    have hne : c ≠ globalContext := by
      rintro rfl
      cases h.top.symm.trans hp
    obtain ⟨kp, hkp⟩ := exists_kind? (lt_size_of_under hs.forest hp)
    obtain ⟨is, his⟩ := ih hkp fun r hr => hcf r (.head hp hr)
    cases h.placed hk hne with
    | ofType parent _ kind type user context name =>
      cases parent.symm.trans hp
      exact ⟨_, his.ofType parent kind type user context name⟩
    | ofFunction _ _ kind => exact (hcf c .refl ⟨_, kind⟩).elim

/-- **The spellings of types outside functions tell them apart.** -/
theorem Orderly.spelled (h : t.Orderly) (hs : t.Sound)
    (hn : ∀ (i : TypeId) (x : TypeInfo), t.types[i]? = some x → x.kind = .user → IsName x.name) :
    Spelled fun i s => t.Outside i ∧ t.spelling i = .ok s := by
  refine spelled_of_lodged hs.forest h.builtIn h.type hn fun i hi => ?_
  obtain ⟨x, hx, hxf⟩ := hi.inside hs
  refine ⟨x, hx, fun hu => ?_⟩
  obtain ⟨cs, -, ha⟩ := enclosing_ascent hs.forest (lt_size_of_kind? (h.type hx hu))
  exact h.lodged hs (h.type hx hu) ha hxf

end SymbolTable

end Codegen
