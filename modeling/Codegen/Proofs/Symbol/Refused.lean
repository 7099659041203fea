import Codegen.Proofs.Symbol.Grown

/-!
# Changes that are refused

A name that is declared already is refused before anything changes. Only a function is declared in
several steps: its context comes first, then its parameters come one by one, and the function
itself comes last. A parameter that is refused leaves behind what came before it.

* `Scoping.declareVariable_eq`, `declareVariable_refused`: a declared variable, and a refused one;
* `SymbolTable.withVariables`, `Scoping.mapM_declareVariable_eq`: variables with distinct names;
* `Change.run_unchanged`: **a refused change leaves the table as it is**, unless it names a
  parameter twice;
* `Change.attempt?`, `Reached.exists_after`: refused changes can be left out;
* `Scoping.declareFunction_repeated`, `Reached.stray`: a function that names a parameter twice
  leaves a context behind, of a function that is not there;
* `Reached.refused_changes`: **what refused changes leave behind**.
-/

namespace Codegen

/-- The table with more variables of a context. -/
def SymbolTable.withVariables (t : SymbolTable) (c : ContextId) (category : VariableCategory)
    (vs : List (String × Option TypeId)) : SymbolTable :=
  vs.foldl (fun t v => t.withVariable c v.1 v.2 category) t

namespace Scoping

variable {α β : Type} {f : Scoping α} {g : α → Scoping β} {t u : SymbolTable} {c : ContextId}
variable {x : Context} {name : String} {type? returnType? : Option TypeId} {e : Fault}
variable {category : VariableCategory} {vs rest : List (String × Option TypeId)}
variable {v : String × Option TypeId}

theorem bind_of_error (h : f t = .error e u) : (f >>= g) t = .error e u := by
  change EStateM.bind f g t = .error e u
  rw [EStateM.bind, h]

/-! ## Variables -/

theorem declareVariable_eq (hx : t.contexts[c]? = some x) (hn : x.vars.lookup name = none) :
    declareVariable c name type? category t =
      .ok t.vars.size (t.withVariable c name type? category) := by
  rw [declareVariable, bind_of_ok (askContext_eq hx), hn]
  exact bind_of_ok (modifyContext_eq
    (t := { t with vars := t.vars.push ⟨name, type?, none, category, c⟩ }) hx _)

theorem declareVariable_refused (hx : t.contexts[c]? = some x) (hn : (x.vars.lookup name).isSome) :
    declareVariable c name type? category t =
      .error (.report (.declared .variableName name)) t := by
  rw [declareVariable, bind_of_ok (askContext_eq hx), if_pos hn]
  rfl

theorem getElem?_withVariable (hx : t.contexts[c]? = some x) :
    (t.withVariable c name type? category).contexts[c]? =
      some { x with vars := x.vars.put name t.vars.size } := by
  rw [SymbolTable.withVariable, Array.getElem?_modify, if_pos rfl, hx]
  rfl

/-- **Variables with distinct names** that are not declared get the next numbers in order. -/
theorem mapM_declareVariable_eq (hx : t.contexts[c]? = some x)
    (hn : ∀ v ∈ vs, x.vars.lookup v.1 = none) (hd : (vs.map Prod.fst).Nodup) :
    (vs.mapM fun (n, type?) => declareVariable c n type? category) t =
      .ok (List.range' t.vars.size vs.length) (t.withVariables c category vs) := by
  induction vs generalizing t x with
  | nil => rfl
  | cons v vs ih =>
    rw [List.map_cons, List.nodup_cons] at hd
    rw [List.mapM_cons, bind_of_ok (declareVariable_eq hx (hn v List.mem_cons_self))]
    have hrest : ∀ w ∈ vs, (x.vars.put v.1 t.vars.size).lookup w.1 = none := fun w hw => by
      have hne : w.1 ≠ v.1 := fun he => hd.1 (he ▸ List.mem_map_of_mem hw)
      rw [Names.lookup_put, if_neg hne]
      exact hn w (List.mem_cons_of_mem _ hw)
    rw [bind_of_ok (ih (getElem?_withVariable hx) hrest hd.2), SymbolTable.withVariable,
      Array.size_push, List.length_cons, List.range'_succ]
    rfl

theorem getElem?_withVariables (hx : t.contexts[c]? = some x) (category : VariableCategory)
    (vs : List (String × Option TypeId)) :
    ∃ ns : Names VariableId,
      (t.withVariables c category vs).contexts[c]? = some { x with vars := ns } ∧
      ∀ n, (x.vars.lookup n).isSome ∨ n ∈ vs.map Prod.fst → (ns.lookup n).isSome := by
  induction vs generalizing t x with
  | nil => exact ⟨x.vars, hx, fun n h => h.resolve_right List.not_mem_nil⟩
  | cons v vs ih =>
    obtain ⟨ns, hns, hlookup⟩ := ih
      (t := t.withVariable c v.1 v.2 category) (getElem?_withVariable hx)
    refine ⟨ns, hns, fun n h => hlookup n ?_⟩
    rw [Names.lookup_put]
    rcases h with h | h
    · left
      split
      · rfl
      · exact h
    · rcases List.mem_cons.mp h with rfl | h
      · exact .inl (by rw [if_pos rfl]; rfl)
      · exact .inr h

theorem functions_withVariables (t : SymbolTable) (c : ContextId) (category : VariableCategory)
    (vs : List (String × Option TypeId)) :
    (t.withVariables c category vs).functions = t.functions := by
  induction vs generalizing t with
  | nil => rfl
  | cons v vs ih => exact ih (t.withVariable c v.1 v.2 category)

/-- **Behind a repeated name** there are the variables in front of it. -/
theorem mapM_declareVariable_repeated (hx : t.contexts[c]? = some x)
    (hn : ∀ w ∈ vs, x.vars.lookup w.1 = none) (hd : (vs.map Prod.fst).Nodup)
    (hv : v.1 ∈ vs.map Prod.fst) :
    ((vs ++ v :: rest).mapM fun (n, type?) => declareVariable c n type? category) t =
      .error (.report (.declared .variableName v.1)) (t.withVariables c category vs) := by
  obtain ⟨ns, hns, hlookup⟩ := getElem?_withVariables hx category vs
  rw [List.mapM_append, bind_of_ok (mapM_declareVariable_eq hx hn hd)]
  refine bind_of_error ?_
  rw [List.mapM_cons]
  exact bind_of_error (declareVariable_refused hns (hlookup v.1 (.inr hv)))

/-! ## Refused changes -/

theorem getElem?_functionContext (t : SymbolTable) (p : ContextId) (identity : String) :
    (t.extended (.ofFunction t.functions.size) p identity).contexts[t.contexts.size]? =
      some { Context.start (.ofFunction t.functions.size) identity with parent? := some p } := by
  rw [SymbolTable.getElem?_extended, if_pos rfl]

theorem declareFunction_unchanged (hc : ∀ x, t.contexts[c]? = some x → t.contexts.size ∉ x.children)
    (hd : (vs.map Prod.fst).Nodup) :
    Ends (declareFunction c name vs returnType?) t (fun _ _ => True) (· = t) := by
  refine .withContext fun x hx => ?_
  dsimp only
  refine .bind (.mapM_question fun f _ => signature_ends f) ?_
  rintro signatures t ⟨rfl, -⟩
  split
  · exact .bind (Q := fun _ _ => False) (.refuse rfl) fun _ _ h => h.elim
  · refine .step rfl (.step (createContext_eq _ hx (hc x hx)) ?_)
    refine .step (mapM_declareVariable_eq (getElem?_functionContext ..) (fun _ _ => rfl) hd) ?_
    exact .step rfl (.bind (Q := fun _ _ => True) (.modifyContext fun _ _ => trivial)
      fun _ _ _ => .pure trivial)

/-- **A function with a new name whose parameters repeat a name** is refused behind the first such
parameter. Its context is there by then, and so are the parameters in front. -/
theorem declareFunction_repeated (hx : t.contexts[c]? = some x) (hc : t.contexts.size ∉ x.children)
    (hn : x.functions.lookup name = none) (hd : (vs.map Prod.fst).Nodup)
    (hv : v.1 ∈ vs.map Prod.fst) :
    declareFunction c name (vs ++ v :: rest) returnType? t =
      .error (.report (.declared .variableName v.1))
        ((t.extended (.ofFunction t.functions.size) c s!"{x.identity}.{x.created}").withVariables
          t.contexts.size .parameter vs) := by
  rw [declareFunction, bind_of_ok (askContext_eq hx), hn]
  change (createContext (.ofFunction t.functions.size) c >>= _) t = _
  rw [bind_of_ok (createContext_eq _ hx hc)]
  exact bind_of_error
    (mapM_declareVariable_repeated (getElem?_functionContext ..) (fun _ _ => rfl) hd hv)

end Scoping

open Scoping

namespace Change

variable {t u : SymbolTable} {ch : Change} {e : CompileError}

/-- The parameters of a new function have distinct names. -/
def Distinct : Change → Prop
  | newFunction _ _ parameters _ => (parameters.map Prod.fst).Nodup
  | _ => True

/-- **A refused change leaves the table as it is**, if it does not name a parameter twice. -/
theorem run_unchanged (ht : t.Sound) (hf : ch.Fits t) (hd : ch.Distinct)
    (hr : ch.run t = .error (.report e) u) : u = t := by
  have hdiscard {α : Type} {f : Scoping α} (h : Ends f t (fun _ _ => True) (· = t)) :
      Ends (discard f) t (fun _ _ => True) (· = t) := .bind h fun _ _ _ => .pure trivial
  have hchild (c : ContextId) (x : Context) (hx : t.contexts[c]? = some x) :
      t.contexts.size ∉ x.children := ht.closed.not_child hx
  have hends : Ends ch.run t (fun _ _ => True) (· = t) := by
    cases ch with
    | newContext kind p =>
      exact hdiscard (.asking fun x hx => .of_ok (createContext_eq kind hx (hchild p x hx)) trivial)
    | newType c name => exact hdiscard (declareType_ends (hchild c) (fun _ _ _ _ => trivial) rfl)
    | supertype i s => exact .modifyType fun _ _ => trivial
    | newVariable c name type? category =>
      exact hdiscard (declareVariable_ends (fun _ _ _ => trivial) rfl)
    | newMember i name type? =>
      refine hdiscard (.bind (Q := fun _ v => v = t) (.askType fun _ _ => rfl) ?_)
      rintro info t rfl
      exact .withContext fun x _ => declareVariable_ends (fun _ _ _ => trivial) rfl
    | newFunction c name parameters returnType? =>
      exact hdiscard (declareFunction_unchanged (hchild c) hd)
    | newLabel c name =>
      refine hdiscard (.withContext fun x _ => ?_)
      dsimp only
      split
      · exact .bind (Q := fun _ _ => False) (.refuse rfl) fun _ _ h => h.elim
      · exact .step rfl (.step rfl (.bind (Q := fun _ _ => True)
          (.modifyContext fun _ _ => trivial) fun _ _ _ => .pure trivial))
    | hint v type? => exact .modifyVariable trivial
    | link child parent =>
      exact (link_ends (ht.forest.isChildOf child)).mono fun _ _ _ => trivial
    | merge c other =>
      exact (merge_ends ht.forest (SymbolTable.not_inside ht.forest hf).2).mono fun _ _ _ => trivial
    | adoptHints c => exact adoptHints_ends.mono fun _ _ _ => trivial
    | detach c => exact (detach_ends (ht.forest.isChildOf c)).mono fun _ _ _ => trivial
  exact hends.2 e u hr

/-- The table behind some changes, if all of them fit. A change may be refused. -/
def attempt? (t : SymbolTable) : List Change → Option SymbolTable
  | [] => some t
  | ch :: changes =>
    if ch.Fits t then
      match ch.run t with
      | .ok () u | .error (.report _) u => attempt? u changes
      | .error (.crash _) _ => none
    else none

end Change

theorem exists_first_repeated {α : Type} {l : List (String × α)} (h : ¬ (l.map Prod.fst).Nodup) :
    ∃ vs v rest, l = vs ++ v :: rest ∧ (vs.map Prod.fst).Nodup ∧ v.1 ∈ vs.map Prod.fst := by
  induction l using List.reverseRecOn with
  | nil => exact absurd List.nodup_nil h
  | append_singleton l w ih =>
    by_cases hl : (l.map Prod.fst).Nodup
    · refine ⟨l, w, [], rfl, hl, ?_⟩
      by_contra hw
      rw [List.map_append, List.map_singleton] at h
      exact h (List.nodup_append_comm.mp (List.nodup_cons.mpr ⟨hw, hl⟩))
    · obtain ⟨vs, v, rest, rfl, hvs, hv⟩ := ih hl
      exact ⟨vs, v, rest ++ [w], by simp, hvs, hv⟩

namespace Reached

variable {t u : SymbolTable} {changes : List Change} {c : ContextId} {x : Context} {name : String}
variable {parameters : List (String × Option TypeId)}

/-- Refused changes can be left out: the others are made without them, and lead to the same
table. -/
theorem exists_after (h : Reached t) (hd : ∀ ch ∈ changes, ch.Distinct)
    (hu : Change.attempt? t changes = some u) :
    ∃ made, made.Sublist changes ∧ Change.after? t made = some u := by
  induction changes generalizing t with
  | nil => exact ⟨[], .slnil, hu⟩
  | cons ch changes ih =>
    have hrest : ∀ ch ∈ changes, ch.Distinct := fun d hm => hd d (List.mem_cons_of_mem _ hm)
    rw [Change.attempt?] at hu
    split at hu
    next hf =>
      split at hu
      next u' hr =>
        obtain ⟨made, hsub, hmade⟩ := ih (h.done hf hr) hrest hu
        exact ⟨ch :: made, hsub.cons_cons ch, by rw [Change.after?, if_pos hf, hr]; exact hmade⟩
      next e u' hr =>
        obtain rfl := Change.run_unchanged h.sound hf (hd ch List.mem_cons_self) hr
        obtain ⟨made, hsub, hmade⟩ := ih h hrest hu
        exact ⟨made, hsub.cons ch, hmade⟩
      next => cases hu
    next => cases hu

/-- A function that names a parameter twice is refused and leaves a context behind. The context
belongs to the function with the next number, which the next function gets that is declared. -/
theorem stray (h : Reached t) (hx : t.contexts[c]? = some x) (hn : x.functions.lookup name = none)
    (hp : ¬ (parameters.map Prod.fst).Nodup) (returnType? : Option TypeId) :
    ∃ n u, declareFunction c name parameters returnType? t =
        .error (.report (.declared .variableName n)) u ∧ Reached u ∧
      u.kind? t.contexts.size = some (.ofFunction t.functions.size) ∧ ¬ u.Orderly ∧
      ∀ d m vs r f w, declareFunction d m vs r u = .ok f w → f = t.functions.size := by
  obtain ⟨vs, v, rest, rfl, hvs, hv⟩ := exists_first_repeated hp
  have hr : declareFunction c name (vs ++ v :: rest) returnType? t = _ :=
    declareFunction_repeated hx (h.sound.closed.not_child hx) hn hvs hv
  obtain ⟨ns, hns, -⟩ := getElem?_withVariables
    (getElem?_functionContext t c s!"{x.identity}.{x.created}") .parameter vs
  have hfunctions := functions_withVariables
    (t.extended (.ofFunction t.functions.size) c s!"{x.identity}.{x.created}") t.contexts.size
    .parameter vs
  generalize (t.extended _ c _).withVariables t.contexts.size .parameter vs = u
    at hr hns hfunctions
  have hkind : u.kind? t.contexts.size = some (.ofFunction t.functions.size) := by
    rw [SymbolTable.kind?, hns]
    rfl
  have hfits : Change.Fits t (.newFunction c name (vs ++ v :: rest) returnType?) := trivial
  have hu : Reached u := h.refused hfits (bind_of_error hr)
  refine ⟨v.1, u, hr, hu, hkind, fun ho => ?_, fun d m vs r => ?_⟩
  · have hpos : t.contexts.size ≠ globalContext :=
      Nat.ne_of_gt (Nat.zero_lt_of_lt (Array.getElem?_eq_some_iff.mp hx).1)
    cases ho.placed hkind hpos with
    | ofType _ _ hk => cases hkind.symm.trans hk
    | ofFunction _ _ hk hf =>
      cases hkind.symm.trans hk
      rw [hfunctions] at hf
      exact Nat.lt_irrefl _ (Array.getElem?_eq_some_iff.mp hf).1
  · exact (declareFunction_ends (Q := fun f _ => f = t.functions.size)
      (fun _ hy => hu.sound.closed.not_child hy)
      fun _ _ _ _ _ => congrArg Array.size hfunctions).1

/-- **What refused changes leave behind.** A refused change leaves the table as it is, and among
others it can be left out; but a function that names a parameter twice leaves a context behind, and
the function with the next number is not the one that the context is made for. -/
theorem refused_changes (h : Reached t) :
    (∀ ch e u, Change.Fits t ch → ch.Distinct → ch.run t = .error (.report e) u → u = t) ∧
    (∀ changes u, (∀ ch ∈ changes, ch.Distinct) → Change.attempt? t changes = some u →
      ∃ made, made.Sublist changes ∧ Change.after? t made = some u) ∧
    ∀ c x name parameters returnType?, t.contexts[c]? = some x →
      x.functions.lookup name = none → ¬ (parameters.map Prod.fst).Nodup →
      ∃ n u, declareFunction c name parameters returnType? t =
          .error (.report (.declared .variableName n)) u ∧ Reached u ∧
        u.kind? t.contexts.size = some (.ofFunction t.functions.size) ∧ ¬ u.Orderly ∧
        ∀ d m vs r f w, declareFunction d m vs r u = .ok f w → f = t.functions.size :=
  ⟨fun _ _ _ hf hd hr => Change.run_unchanged h.sound hf hd hr,
    fun _ _ hd hu => h.exists_after hd hu,
    fun _ _ _ _ returnType? hx hn hp => h.stray hx hn hp returnType?⟩

/-- A variable that is declared twice, and a function whose parameters have one name. -/
theorem refused_changes_repeated :
    (∃ made, made.Sublist [.newVariable 0 "v" none .inner, .newVariable 0 "v" none .inner] ∧
      Change.after? .start made =
        Change.attempt? .start [.newVariable 0 "v" none .inner, .newVariable 0 "v" none .inner]) ∧
    ∃ n u, declareFunction 0 "f" [("a", some 6), ("a", some 7)] none .start =
      .error (.report (.declared .variableName n)) u ∧ u.kind? 1 = some (.ofFunction 0) ∧
        ¬ u.Orderly := by
  obtain ⟨-, hmade, hstray⟩ := refused_changes .start
  constructor
  · obtain ⟨u, hu⟩ : ∃ u, Change.attempt? .start
        [.newVariable 0 "v" none .inner, .newVariable 0 "v" none .inner] = some u :=
      Option.isSome_iff_exists.mp (by decide +kernel)
    rw [hu]
    exact hmade _ u (by simp [Change.Distinct]) hu
  · obtain ⟨n, u, hu, -, hkind, horderly, -⟩ := hstray 0 _ "f" [("a", some 6), ("a", some 7)] none
      rfl rfl (by decide)
    exact ⟨n, u, hu, hkind, horderly⟩

/-- Two contexts of the first function. -/
example : (Change.attempt? .start [.newFunction 0 "f" [("a", some 6), ("a", some 7)] none,
    .newFunction 0 "g" [] none]).map (fun t => (t.kind? 1, t.kind? 2, t.functions.size)) =
      some (some (.ofFunction 0), some (.ofFunction 0), 1) := by
  decide +kernel

end Reached

end Codegen
