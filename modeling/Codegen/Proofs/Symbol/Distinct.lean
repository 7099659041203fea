import Codegen.Proofs.Symbol.Own

/-!
# Functions have different symbol names

* `Declared`: **the tables that declarations lead to**, with questions for mangles between them;
* `Declared.spec`: each context of such a table has its place, and what it remembers is right;
* `Declared.mangles`: **mangles that are remembered do not get old**;
* `SymbolTable.Descent`: the way from a context down to another one;
* `Declared.symbol_ne`: **two functions have different symbol names**.
-/

namespace Codegen

/-- **The tables that declarations lead to**, none of which was refused. Mangles may be asked for
in between. -/
inductive Declared : SymbolTable → Prop
  | start : Declared .start
  | declare {t u : SymbolTable} {ch : Change} (h : Declared t) (hd : ch.IsDeclaration)
    (hr : ch.run t = .ok () u) : Declared u
  | ask {t u : SymbolTable} {c : ContextId} {m : Mangle} (h : Declared t)
    (hm : t.mangle c = .ok (m, u)) : Declared u

namespace SymbolTable

variable {t u : SymbolTable}

/-! ## Declarations and questions -/

theorem Recalls.sound (h : t.Recalls u) (ht : t.Sound) : u.Sound where
  closed := by
    have hwithin : u.Within t.contexts.size t.types.size t.vars.size := by
      refine ⟨h.size, by rw [h.types], by rw [h.vars], fun y hy => ?_, ?_⟩
      · obtain ⟨c, hc⟩ := Array.mem_iff_getElem?.mp hy
        have hcontext := h.context c
        rw [hc] at hcontext
        obtain ⟨x, hx, hf⟩ := Option.map_eq_some_iff.mp hcontext.symm
        have hw := ht.closed.within hx
        simp only [forget, Context.mk.injEq] at hf
        obtain ⟨-, -, hparent, hchildren, htypes, -, hvars, -⟩ := hf
        exact ⟨hparent ▸ hw.parent, hchildren ▸ hw.children, htypes ▸ hw.types, hvars ▸ hw.vars⟩
      · rw [h.types]
        exact ht.closed.type
    exact hwithin.toClosed
  forest := h.forest ht.forest

theorem Recalls.orderly (h : t.Recalls u) (ht : t.Orderly) : u.Orderly := by
  refine ht.extend h.toExtends (fun c k hk hn => ?_) (fun i x hx hn => ?_) fun f x hx hn => ?_
  · rw [h.kind?, hn] at hk
    cases hk
  · rw [h.types, hn] at hx
    cases hx
  · rw [h.functions, hn] at hx
    cases hx

theorem Grown.remembered (h : t.Grown u) (ht : t.links.Forest) (hu : u.links.Forest)
    (hr : t.Remembered) : u.Remembered := fun hy hm => by
  obtain ⟨x, hx, hm⟩ := h.memo hy hm
  exact h.kept.mangles ht hu (hr hx hm)

theorem start_remembered : SymbolTable.start.Remembered := by
  intro c x m hx hm
  have hnone : ∀ x ∈ SymbolTable.start.contexts, x.mangle? = none := by decide
  cases (hnone x (Array.mem_of_getElem? hx)).symm.trans hm

end SymbolTable

/-- **Each context has its place, and what is remembered is right.** -/
theorem Declared.spec {t : SymbolTable} (h : Declared t) : t.Sound ∧ t.Orderly ∧ t.Remembered := by
  induction h with
  | start =>
    exact ⟨SymbolTable.start_sound, SymbolTable.start_orderly, SymbolTable.start_remembered⟩
  | @declare t u ch _ hd hr ih =>
    obtain ⟨hs, ho, hm⟩ := ih
    have hgrown := (Change.run_grown hd hs ho).1 _ _ hr
    have hsound := (Change.run_sound (hd.fits t) hs).1 _ _ hr
    exact ⟨hsound, hgrown.orderly, hgrown.remembered hs.forest hsound.forest hm⟩
  | ask _ hm ih =>
    obtain ⟨hs, ho, hr⟩ := ih
    obtain ⟨-, hrecalls, hremembered⟩ := SymbolTable.mangle_spec hs.forest hr hm
    exact ⟨hrecalls.sound hs, hrecalls.orderly ho, hremembered⟩

/-- The answer to a question for a mangle is the one that the table gives now, whatever was asked
and declared before. -/
theorem Declared.mangles {t u : SymbolTable} {c : ContextId} {m : Mangle} (h : Declared t)
    (hm : t.mangle c = .ok (m, u)) : t.Mangles c m :=
  (SymbolTable.mangle_spec h.spec.1.forest h.spec.2.2 hm).1

namespace SymbolTable

variable {t : SymbolTable} {a b c d : ContextId} {k : ContextKind} {m m' m₁ : Mangle}
variable {f : FunctionId} {x : FunctionInfo}

/-! ## The way down -/

/-- **The way from a context down to another one**, with their mangles. -/
inductive Descent (t : SymbolTable) : ContextId → Mangle → ContextId → Mangle → Prop
  | here {a : ContextId} {m : Mangle} : Descent t a m a m
  | down {a b c : ContextId} {k : ContextKind} {m m₁ m' : Mangle}
    (parent : t.links.parent? b = some a) (kind : t.kind? b = some k)
    (own : t.extendMangle m k = .ok m₁) (rest : Descent t b m₁ c m') : Descent t a m c m'

theorem Descent.snoc (h : t.Descent a m b m₁) (hp : t.links.parent? c = some b)
    (hk : t.kind? c = some k) (he : t.extendMangle m₁ k = .ok m') : t.Descent a m c m' := by
  induction h with
  | here => exact .down hp hk he .here
  | down parent kind own _ ih => exact .down parent kind own (ih hp he)

theorem Mangles.descent (ho : t.Orderly) (h : t.Mangles c m) :
    t.Descent globalContext .start c m := by
  induction h with
  | outermost top kind own =>
    cases ho.eq_global kind top
    cases kind.symm.trans ho.root
    cases own
    exact .here
  | inner parent _ kind own ih => exact ih.snoc parent kind own

section

variable (hn : t.Nameable t.Outside) (ho : t.Orderly) (hs : t.Sound)
include hn ho hs

theorem Descent.text (h : t.Descent a m c m') (hm : m.Indexed) :
    ∃ r, m'.value.toList = m.value.toList ++ r ∧ Resumes r := by
  induction h with
  | here => exact ⟨[], (List.append_nil _).symm, nofun⟩
  | down parent kind own _ ih =>
    obtain ⟨m₁, text, he, hm₁, htext, hne, hresumes⟩ :=
      hn.own_text ho hs (fun _ => Outside.lt) parent kind hm
    cases own.symm.trans he
    obtain ⟨r, hr, -⟩ := ih hm₁
    exact ⟨text ++ r, by rw [hr, htext, List.append_assoc], hresumes.append hne r⟩

theorem Descent.text_ne (h : t.Descent b m₁ c m') (hp : t.links.parent? b = some a)
    (hk : t.kind? b = some k) (hown : t.extendMangle m k = .ok m₁) (hm : m.Indexed) :
    m'.value.toList ≠ m.value.toList := by
  obtain ⟨_, text, he, hm₁, htext, hne, -⟩ :=
    hn.own_text ho hs (fun _ => Outside.lt) hp hk hm
  cases hown.symm.trans he
  obtain ⟨r, hr, -⟩ := h.text hn ho hs hm₁
  rw [hr, htext, List.append_assoc]
  intro hsame
  exact hne (List.append_eq_nil_iff.mp (List.append_right_eq_self.mp hsame)).1

/-- **The text of a way down tells where it ends.** -/
theorem Descent.unique {d : ContextId} {m'' : Mangle} (h : t.Descent a m c m')
    (h' : t.Descent a m d m'') (hm : m.Indexed) (he : m'.value.toList = m''.value.toList) :
    c = d := by
  induction h generalizing d m'' with
  | here =>
    cases h' with
    | here => rfl
    | down parent kind own rest =>
      exact absurd he.symm (rest.text_ne hn ho hs parent kind own hm)
  | down parent kind own rest ih =>
    cases h' with
    | here => exact absurd he (rest.text_ne hn ho hs parent kind own hm)
    | down parent' kind' own' rest' =>
      obtain ⟨_, -, hext, hm₁, -⟩ := hn.own_text ho hs (fun _ => Outside.lt) parent kind hm
      cases own.symm.trans hext
      obtain ⟨_, -, hext', hm₁', -⟩ := hn.own_text ho hs (fun _ => Outside.lt) parent' kind' hm
      cases own'.symm.trans hext'
      obtain ⟨r, hr, hresumes⟩ := rest.text hn ho hs hm₁
      obtain ⟨r', hr', hresumes'⟩ := rest'.text hn ho hs hm₁'
      cases hn.child_inj ho hs hm parent parent' kind kind' own own' hresumes hresumes'
        (by rw [← hr, ← hr', he])
      cases kind.symm.trans kind'
      cases own.symm.trans own'
      exact ih rest' hm₁ he

theorem Nameable.own_ok (hk : t.kind? c = some k) (m : Mangle) :
    ∃ m', t.extendMangle m k = .ok m' := by
  by_cases hc : c = globalContext
  · subst hc
    cases hk.symm.trans ho.root
    exact ⟨m, rfl⟩
  · cases ho.placed hk hc with
    | ofType _ _ kind type =>
      cases kind.symm.trans hk
      exact ⟨_, extendMangle_ofType type m⟩
    | ofFunction _ _ kind function =>
      cases kind.symm.trans hk
      obtain ⟨ts, -, -, result, he⟩ := hn.extendMangle ho hs (fun _ => Outside.lt) function
      exact ⟨_, he m⟩

/-- The symbol name of a function is the text of its context's mangle. -/
theorem Nameable.symbol_ok (hr : t.Remembered) (hf : t.functions[f]? = some x) :
    ∃ m, t.Mangles x.context m ∧ t.symbol f = .ok m.value := by
  have hc := lt_size_of_kind? (ho.function hf)
  obtain ⟨m, u, hm⟩ := mangle_ok ho hs.forest hr (fun c k m hk => hn.own_ok ho hs hk m) hc
  refine ⟨m, (mangle_spec hs.forest hr hm).1, Arena.bind_eq_ok.mpr ⟨x, ?_, ?_⟩⟩
  · rw [functionInfo, hf]
    rfl
  · exact Arena.bind_eq_ok.mpr ⟨(m, u), hm, rfl⟩

end

end SymbolTable

/-- **Two functions have different symbol names**, in every table that declarations lead to, if all
parameters have types outside functions. -/
theorem Declared.symbol_ne {t : SymbolTable} (h : Declared t) (hn : t.Nameable t.Outside)
    {f g : FunctionId} (hf : f < t.functions.size) (hg : g < t.functions.size) (hfg : f ≠ g) :
    ∃ x y, t.symbol f = .ok x ∧ t.symbol g = .ok y ∧ x ≠ y := by
  obtain ⟨hs, ho, hr⟩ := h.spec
  obtain ⟨i, hi⟩ : ∃ i, t.functions[f]? = some i := ⟨_, Array.getElem?_eq_getElem hf⟩
  obtain ⟨j, hj⟩ : ∃ j, t.functions[g]? = some j := ⟨_, Array.getElem?_eq_getElem hg⟩
  obtain ⟨m, hm, hsymbol⟩ := hn.symbol_ok ho hs hr hi
  obtain ⟨m', hm', hsymbol'⟩ := hn.symbol_ok ho hs hr hj
  refine ⟨_, _, hsymbol, hsymbol', fun he => hfg ?_⟩
  have hcontext := (hm.descent ho).unique hn ho hs (hm'.descent ho) .start (by rw [he])
  have hkind := ho.function hi
  rw [hcontext, ho.function hj] at hkind
  cases hkind
  rfl

theorem Declared.after {t u : SymbolTable} {changes : List Change} (h : Declared t)
    (hd : ∀ ch ∈ changes, ch.IsDeclaration) (hu : Change.after? t changes = some u) :
    Declared u := by
  induction changes generalizing t with
  | nil =>
    cases hu
    exact h
  | cons ch changes ih =>
    rw [Change.after?, if_pos ((hd ch List.mem_cons_self).fits t)] at hu
    split at hu
    next t' hr =>
      exact ih (h.declare (hd ch List.mem_cons_self) hr)
        (fun d hd' => hd d (List.mem_cons_of_mem _ hd')) hu
    next => cases hu

/-- Two functions of one name, of which one takes a type and the other one a type inside it. -/
def twoFunctions : List Change :=
  [.newType 0 "Vec", .newType 1 "Item", .newFunction 0 "put" [("a", some 11)] none,
    .newFunction 0 "put" [("a", some 12)] (some 6)]

theorem symbol_ne_twoFunctions : ∃ t, Change.after? .start twoFunctions = some t ∧
    ∃ x y, t.symbol 0 = .ok x ∧ t.symbol 1 = .ok y ∧ x ≠ y := by
  have hdone : (Change.after? .start twoFunctions).any fun t =>
      decide (t.Nameable t.Outside ∧ 1 < t.functions.size) := by decide +kernel
  obtain ⟨t, ht, hfits⟩ := (Option.any_eq_true _ _).mp hdone
  obtain ⟨hn, hsize⟩ := of_decide_eq_true hfits
  have hd : ∀ ch ∈ twoFunctions, ch.IsDeclaration := by simp [twoFunctions, Change.IsDeclaration]
  exact ⟨t, ht, (Declared.start.after hd ht).symbol_ne hn (Nat.zero_lt_of_lt hsize) hsize
    Nat.zero_ne_one⟩

/-- **A type declared outside functions**, but perhaps in a type of a function. -/
def SymbolTable.DeclaredOutside (t : SymbolTable) (i : TypeId) : Prop :=
  ∃ x, t.types[i]? = some x ∧ ∀ p ∈ t.links.parent? x.context, ¬ t.IsFunction p

instance (t : SymbolTable) (i : TypeId) : Decidable (t.DeclaredOutside i) :=
  decidable_of_iff (t.types[i]?.any fun x =>
      (t.links.parent? x.context).all fun p => !decide (t.IsFunction p)) <| by
    rw [SymbolTable.DeclaredOutside]
    cases t.types[i]? with
    | none => simp
    | some x => cases h : t.links.parent? x.context <;> simp [h]

/-- A function in which a type has a type, and types of the same names outside the function. -/
def sameNames : List Change :=
  [.newFunction 0 "f" [] none, .newType 1 "U", .newType 2 "T", .newType 0 "U", .newType 4 "T",
    .newFunction 0 "g" [("a", some 12)] none, .newFunction 0 "g" [("a", some 14)] none]

/-- **A type of a type of a function** is spelled as if the function were not around it. -/
theorem symbol_sameNames : ∃ t, Change.after? .start sameNames = some t ∧ Declared t ∧
    t.Nameable t.DeclaredOutside ∧ t.symbol 1 = .ok "_V1gPN1U1TE" ∧
    t.symbol 2 = .ok "_V1gPN1U1TE" := by
  have hdone : (Change.after? .start sameNames).any fun t =>
      decide (t.Nameable t.DeclaredOutside ∧ t.symbol 1 = .ok "_V1gPN1U1TE" ∧
        t.symbol 2 = .ok "_V1gPN1U1TE") := by decide +kernel
  obtain ⟨t, ht, hfits⟩ := (Option.any_eq_true _ _).mp hdone
  have hd : ∀ ch ∈ sameNames, ch.IsDeclaration := by simp [sameNames, Change.IsDeclaration]
  exact ⟨t, ht, Declared.start.after hd ht, of_decide_eq_true hfits⟩

end Codegen
