import Codegen.Proofs.Symbol.Naming

/-!
# What contexts add to mangles

Below one context, a type adds its name in brackets, and a function adds its name, its parameter
types and the type that it returns. What follows begins with a bracket or with the length of a name.

* `SymbolTable.Nameable`: all that symbol names are made of can be read and exists;
* `Nameable.extendMangle`: what a function adds;
* `Nameable.own_text`: what any context adds begins as names and brackets do;
* `Nameable.child_inj`: **what a context adds tells which one it is**.
-/

namespace Codegen

namespace SymbolTable

variable {t : SymbolTable} {a b c : ContextId} {k k' : ContextKind} {m m₁ m₁' : Mangle}
variable {P : TypeId → Prop} {r r' : List Char} {f g : FunctionId} {x y : FunctionInfo}

/-! ## What symbol names are made of -/

/-- **All that symbol names are made of** can be read and exists, and the parameters have types of
some kind. -/
structure Nameable (t : SymbolTable) (P : TypeId → Prop) : Prop where
  typeName : ∀ {i : TypeId} {x : TypeInfo}, t.types[i]? = some x → x.kind = .user → IsName x.name
  functionName : ∀ {f : FunctionId} {x : FunctionInfo}, t.functions[f]? = some x → IsName x.name
  parameter : ∀ {f : FunctionId} {x : FunctionInfo}, t.functions[f]? = some x →
    ∀ v ∈ x.parameters, ∃ y i, t.vars[v]? = some y ∧ y.type? = some i ∧ P i
  returnType : ∀ {f : FunctionId} {x : FunctionInfo}, t.functions[f]? = some x →
    ∀ i ∈ x.returnType?, i < t.types.size

theorem nameable_iff [DecidablePred P] : t.Nameable P ↔
    (∀ x ∈ t.types, x.kind = .user → IsName x.name) ∧
      ∀ x ∈ t.functions, IsName x.name ∧
        (∀ v ∈ x.parameters, (t.vars[v]?.bind (·.type?)).any (decide <| P ·)) ∧
        x.returnType?.all (· < t.types.size) := by
  refine Iff.symm ?_
  constructor
  · rintro ⟨htypes, hfunctions⟩
    refine ⟨fun hx => htypes _ (Array.mem_of_getElem? hx),
      fun hx => (hfunctions _ (Array.mem_of_getElem? hx)).1, fun hx v hv => ?_, fun hx i hi => ?_⟩
    · have hany := (hfunctions _ (Array.mem_of_getElem? hx)).2.1 v hv
      obtain ⟨i, hi, hP⟩ := (Option.any_eq_true _ _).mp hany
      obtain ⟨y, hy, hyi⟩ := Option.bind_eq_some_iff.mp hi
      exact ⟨y, i, hy, hyi, of_decide_eq_true hP⟩
    · have hall := (hfunctions _ (Array.mem_of_getElem? hx)).2.2
      rw [Option.mem_def.mp hi] at hall
      simpa using hall
  · intro h
    refine ⟨fun x hx => ?_, fun x hx => ?_⟩
    · obtain ⟨i, hi⟩ := Array.mem_iff_getElem?.mp hx
      exact h.typeName hi
    · obtain ⟨f, hf⟩ := Array.mem_iff_getElem?.mp hx
      refine ⟨h.functionName hf, fun v hv => ?_, ?_⟩
      · obtain ⟨y, i, hy, hi, hP⟩ := h.parameter hf v hv
        simp [hy, hi, hP]
      · cases hr : x.returnType? with
        | none => rfl
        | some i => simpa using h.returnType hf i hr

instance (t : SymbolTable) (P : TypeId → Prop) [DecidablePred P] : Decidable (t.Nameable P) :=
  decidable_of_iff' _ nameable_iff

/-- A mangle with the type that a function returns, if it returns something. -/
def returned (m : Mangle) : Option (TypeId × Spelling) → Mangle
  | none => m
  | some x => m.addReturnType x.1 x.2

theorem exists_spelling (ho : t.Orderly) (hs : t.Sound) {i : TypeId} (hi : i < t.types.size) :
    ∃ s, t.spelling i = .ok s := by
  rcases ho.spelling_cases hs (Array.getElem?_eq_getElem hi) with ⟨c, -, h⟩ | ⟨-, cs, -, h⟩
  · exact ⟨_, h⟩
  · exact ⟨_, h⟩

/-- The parameter types of a function, with their spellings. -/
theorem exists_spelled (ho : t.Orderly) (hs : t.Sound) (hP : ∀ i, P i → i < t.types.size)
    {vs : List VariableId}
    (hvs : ∀ v ∈ vs, ∃ y i, t.vars[v]? = some y ∧ y.type? = some i ∧ P i) :
    ∃ ts : List (TypeId × Spelling), (∀ x ∈ ts, P x.1 ∧ t.spelling x.1 = .ok x.2) ∧
      vs.mapM (fun v => t.vars[v]?.map (·.type?)) = some (ts.map fun x => some x.1) ∧
      (vs.filterMapM fun v => return (← t.variableInfo v).type? : Except Fault (List TypeId)) =
        .ok (ts.map (·.1)) ∧
      ((ts.map (·.1)).mapM fun i => return (i, ← t.spelling i) :
        Except Fault (List (TypeId × Spelling))) = .ok ts := by
  induction vs with
  | nil => exact ⟨[], nofun, rfl, rfl, rfl⟩
  | cons v vs ih =>
    obtain ⟨ts, hts, hmap, hfilter, hspell⟩ := ih fun w hw => hvs w (List.mem_cons_of_mem _ hw)
    obtain ⟨y, i, hy, hi, hPi⟩ := hvs v List.mem_cons_self
    obtain ⟨s, hsi⟩ := exists_spelling ho hs (hP i hPi)
    have hv : t.variableInfo v = .ok y := by
      rw [variableInfo, hy]
      rfl
    refine ⟨(i, s) :: ts, ?_, ?_, ?_, ?_⟩
    · rintro x (_ | ⟨_, hx⟩)
      · exact ⟨hPi, hsi⟩
      · exact hts x hx
    · rw [List.mapM_cons, hy, hmap, Option.map_some, hi]
      rfl
    · rw [List.filterMapM_cons, hv]
      refine Arena.bind_eq_ok.mpr ⟨some i, by rw [← hi]; rfl, ?_⟩
      exact Arena.bind_eq_ok.mpr ⟨_, hfilter, rfl⟩
    · rw [List.map_cons, List.mapM_cons]
      exact Arena.bind_eq_ok.mpr ⟨(i, s), Arena.bind_eq_ok.mpr ⟨s, hsi, rfl⟩,
        Arena.bind_eq_ok.mpr ⟨ts, hspell, rfl⟩⟩

/-- **What a function adds to a mangle.** -/
theorem Nameable.extendMangle (hn : t.Nameable P) (ho : t.Orderly) (hs : t.Sound)
    (hP : ∀ i, P i → i < t.types.size) (hf : t.functions[f]? = some x) :
    ∃ ts : List (TypeId × Spelling), (∀ x ∈ ts, P x.1 ∧ t.spelling x.1 = .ok x.2) ∧
      t.signature? f = some (ts.map fun x => some x.1) ∧ ∃ result, ∀ m,
        t.extendMangle m (.ofFunction f) =
          .ok (returned ((m.addName x.name).addParameters ts) result) := by
  obtain ⟨ts, hts, hmap, hfilter, hspell⟩ := exists_spelled ho hs hP (hn.parameter hf)
  have hinfo : t.functionInfo f = .ok x := by
    rw [functionInfo, hf]
    rfl
  refine ⟨ts, hts, by rw [signature?, hf]; exact hmap, ?_⟩
  cases hr : x.returnType? with
  | none =>
    refine ⟨none, fun m => Arena.bind_eq_ok.mpr ⟨x, hinfo, Arena.bind_eq_ok.mpr ⟨_, hfilter,
      Arena.bind_eq_ok.mpr ⟨ts, hspell, ?_⟩⟩⟩⟩
    rw [hr]
    rfl
  | some i =>
    obtain ⟨s, hi⟩ := exists_spelling ho hs (hn.returnType hf i hr)
    refine ⟨some (i, s), fun m => Arena.bind_eq_ok.mpr ⟨x, hinfo, Arena.bind_eq_ok.mpr ⟨_, hfilter,
      Arena.bind_eq_ok.mpr ⟨ts, hspell, ?_⟩⟩⟩⟩
    rw [hr]
    exact Arena.bind_eq_ok.mpr ⟨s, hi, rfl⟩

/-! ## Reading what a context adds -/

/-- A text that begins with a bracket or with the number ahead of a name, or ends. -/
def Resumes (r : List Char) : Prop := ∀ c ∈ r.head?, c = 'N' ∨ c.isDigit = true

theorem resumes_cons {c : Char} {r : List Char} (h : c = 'N' ∨ c.isDigit = true) :
    Resumes (c :: r) := by
  simpa [Resumes] using h

theorem Resumes.stops (h : Resumes r) : Stops opensType r := by
  intro c hc
  by_contra hopens
  rw [Bool.not_eq_false, opensType, Bool.or_eq_true, Bool.or_eq_true, decide_eq_true_eq,
    decide_eq_true_eq, List.contains_iff_mem] at hopens
  have hmem : c ∈ 'P' :: 'S' :: typeCodes := by simpa [or_assoc] using hopens
  have hnone : ∀ c ∈ 'P' :: 'S' :: typeCodes, c ≠ 'N' ∧ c.isDigit = false := by
    simp [typeCodes]
  obtain ⟨hN, hdigit⟩ := hnone c hmem
  rcases h c hc with rfl | hd
  · exact hN rfl
  · rw [hd] at hdigit
    cases hdigit

theorem Resumes.append {l : List Char} (h : Resumes l) (hl : l ≠ []) (r : List Char) :
    Resumes (l ++ r) := by
  cases l with
  | nil => exact absurd rfl hl
  | cons c l => exact h

theorem resumes_nameText (n : String) (r : List Char) :
    Resumes ((Mangle.nameText n).toList ++ r) := by
  obtain ⟨c, cs, hc, hd⟩ := Mangle.nameText_head n
  rw [hc]
  exact resumes_cons (.inr hd)

theorem returned_text (m : Mangle) (result : Option (TypeId × Spelling)) :
    ∃ text, (returned m result).value.toList = m.value.toList ++ text ∧
      ∀ r, Resumes r → Stops opensType (text ++ r) := by
  cases result with
  | none => exact ⟨[], (List.append_nil _).symm, fun r hr => hr.stops⟩
  | some x =>
    refine ⟨'_' :: 'r' :: (m.addText "_r").passedText x.1 x.2, ?_, fun r _ => stops_cons rfl⟩
    rw [returned, Mangle.addReturnType, Mangle.toList_addPassed, Mangle.toList_addText]
    simp

theorem indexed_returned (hm : m.Indexed) (result : Option (TypeId × Spelling)) :
    (returned m result).Indexed := by
  cases result with
  | none => exact hm
  | some x => exact Mangle.Indexed.addPassed (hm.addText "_r") x.1 x.2

theorem extendMangle_ofType {i : TypeId} {x : TypeInfo} (hx : t.types[i]? = some x) (m : Mangle) :
    t.extendMangle m (.ofType i) = .ok (((m.addText "N").addName x.name).addText "E") :=
  Arena.bind_eq_ok.mpr ⟨x, typeInfo_eq hx, rfl⟩

/-- **What a context adds** begins as names and brackets do. -/
theorem Nameable.own_text (hn : t.Nameable P) (ho : t.Orderly) (hs : t.Sound)
    (hP : ∀ i, P i → i < t.types.size) (hp : t.links.parent? b = some a)
    (hk : t.kind? b = some k) (hm : m.Indexed) :
    ∃ m₁ own, t.extendMangle m k = .ok m₁ ∧ m₁.Indexed ∧
      m₁.value.toList = m.value.toList ++ own ∧ own ≠ [] ∧ Resumes own := by
  have hb : b ≠ globalContext := by
    rintro rfl
    cases ho.top.symm.trans hp
  cases ho.placed hk hb with
  | @ofType _ i x _ _ kind type =>
    cases kind.symm.trans hk
    refine ⟨_, 'N' :: ((Mangle.nameText x.name).toList ++ ['E']), extendMangle_ofType type m,
      ((hm.addText "N").addText _).addText "E", ?_, nofun, ?_⟩
    · simp [Mangle.addName]
    · exact resumes_cons (.inl rfl)
  | @ofFunction f x _ _ _ kind function =>
    cases kind.symm.trans hk
    obtain ⟨ts, -, -, result, he⟩ := hn.extendMangle ho hs hP function
    obtain ⟨text, htext⟩ := Mangle.addParameters_text (m.addName x.name) ts
    obtain ⟨text', htext', -⟩ := returned_text ((m.addName x.name).addParameters ts) result
    refine ⟨_, (Mangle.nameText x.name).toList ++ (text ++ text'), he m,
      indexed_returned ((hm.addText _).addParameters ts) result, ?_, ?_, resumes_nameText _ _⟩
    · rw [htext', htext, Mangle.addName, Mangle.toList_addText, List.append_assoc,
        List.append_assoc]
    · obtain ⟨c, cs, hc, -⟩ := Mangle.nameText_head x.name
      rw [hc]
      nofun

theorem toList_ofType (m : Mangle) (n : String) (l : List Char) :
    (((m.addText "N").addName n).addText "E").value.toList ++ l =
      m.value.toList ++ 'N' :: ((Mangle.nameText n).toList ++ 'E' :: l) := by
  simp [Mangle.addName]

theorem toList_ofFunction (m : Mangle) (n : String) (ts : List (TypeId × Spelling))
    (result : Option (TypeId × Spelling)) : ∃ text, ∀ l,
      (returned ((m.addName n).addParameters ts) result).value.toList ++ l =
        m.value.toList ++ ((Mangle.nameText n).toList ++ (text ++ l)) := by
  obtain ⟨text, htext⟩ := Mangle.addParameters_text (m.addName n) ts
  obtain ⟨text', htext', -⟩ := returned_text ((m.addName n).addParameters ts) result
  refine ⟨text ++ text', fun l => ?_⟩
  rw [htext', htext, Mangle.addName, Mangle.toList_addText]
  simp only [List.append_assoc]

/-- A type begins with a bracket, a function with the length of its name. -/
theorem Nameable.type_ne_function (hn : t.Nameable P) (ho : t.Orderly) (hs : t.Sound)
    (hP : ∀ i, P i → i < t.types.size) {i : TypeId} {z : TypeInfo} (hi : t.types[i]? = some z)
    (hf : t.functions[f]? = some x) (he : t.extendMangle m (.ofType i) = .ok m₁)
    (he' : t.extendMangle m (.ofFunction f) = .ok m₁') :
    m₁.value.toList ++ r ≠ m₁'.value.toList ++ r' := by
  intro h
  obtain ⟨ts, -, -, result, hmf⟩ := hn.extendMangle ho hs hP hf
  cases he.symm.trans (extendMangle_ofType hi m)
  cases he'.symm.trans (hmf m)
  obtain ⟨text, htext⟩ := toList_ofFunction m x.name ts result
  obtain ⟨d, ds, hd, hdigit⟩ := Mangle.nameText_head x.name
  rw [toList_ofType, htext, hd] at h
  obtain ⟨rfl, -⟩ := List.cons.inj (List.append_cancel_left h)
  cases hdigit

/-- Two types of one context differ in what they add, unless they have the same name. -/
theorem Nameable.typeName_inj (hn : t.Nameable P) {i j : TypeId} {z w : TypeInfo}
    (hi : t.types[i]? = some z) (hz : z.kind = .user) (hj : t.types[j]? = some w)
    (hw : w.kind = .user) (he : t.extendMangle m (.ofType i) = .ok m₁)
    (he' : t.extendMangle m (.ofType j) = .ok m₁')
    (h : m₁.value.toList ++ r = m₁'.value.toList ++ r') : z.name = w.name := by
  cases he.symm.trans (extendMangle_ofType hi m)
  cases he'.symm.trans (extendMangle_ofType hj m)
  rw [toList_ofType, toList_ofType] at h
  exact (Mangle.nameText_append_inj (hn.typeName hi hz) (hn.typeName hj hw)
    (List.cons.inj (List.append_cancel_left h)).2).1

/-- Two functions of one context differ in what they add. -/
theorem Nameable.function_inj (hn : t.Nameable t.Outside) (ho : t.Orderly) (hs : t.Sound)
    (hm : m.Indexed) (hf : t.functions[f]? = some x) (hg : t.functions[g]? = some y)
    (hp : x.parent = y.parent) (he : t.extendMangle m (.ofFunction f) = .ok m₁)
    (he' : t.extendMangle m (.ofFunction g) = .ok m₁') (hr : Resumes r) (hr' : Resumes r')
    (h : m₁.value.toList ++ r = m₁'.value.toList ++ r') : f = g := by
  obtain ⟨ts, hts, hsignature, result, hmf⟩ := hn.extendMangle ho hs (fun _ => Outside.lt) hf
  obtain ⟨ts', hts', hsignature', result', hmg⟩ :=
    hn.extendMangle ho hs (fun _ => Outside.lt) hg
  cases he.symm.trans (hmf m)
  cases he'.symm.trans (hmg m)
  have hname : x.name = y.name := by
    obtain ⟨text, htext⟩ := toList_ofFunction m x.name ts result
    obtain ⟨text', htext'⟩ := toList_ofFunction m y.name ts' result'
    rw [htext, htext'] at h
    exact (Mangle.nameText_append_inj (hn.functionName hf) (hn.functionName hg)
      (List.append_cancel_left h)).1
  -- with one name, they are told apart by their parameters
  obtain ⟨text, htext, hstops⟩ := returned_text ((m.addName x.name).addParameters ts) result
  obtain ⟨text', htext', hstops'⟩ := returned_text ((m.addName y.name).addParameters ts') result'
  rw [htext, htext', List.append_assoc, List.append_assoc, hname] at h
  obtain ⟨rfl, -⟩ := Mangle.addParameters_append_inj (ho.spelled hs fun _ _ => hn.typeName)
    (hm.addText _) hts hts' (hstops r hr) (hstops' r' hr') h
  exact ho.distinct hf hg hp hname (hsignature.trans hsignature'.symm)

/-- **What a context adds tells which one it is** among those below the same context. -/
theorem Nameable.child_inj (hn : t.Nameable t.Outside) (ho : t.Orderly) (hs : t.Sound)
    (hm : m.Indexed) (hb : t.links.parent? b = some a) (hc : t.links.parent? c = some a)
    (hkb : t.kind? b = some k) (hkc : t.kind? c = some k') (he : t.extendMangle m k = .ok m₁)
    (he' : t.extendMangle m k' = .ok m₁') (hr : Resumes r) (hr' : Resumes r')
    (h : m₁.value.toList ++ r = m₁'.value.toList ++ r') : b = c := by
  have hne {b : ContextId} (hb : t.links.parent? b = some a) : b ≠ globalContext := by
    rintro rfl
    cases ho.top.symm.trans hb
  cases ho.placed hkb (hne hb) with
  | ofType parent _ kind type user context name =>
    cases kind.symm.trans hkb
    cases parent.symm.trans hb
    cases ho.placed hkc (hne hc) with
    | ofType parent' _ kind' type' user' context' name' =>
      cases kind'.symm.trans hkc
      cases parent'.symm.trans hc
      rw [hn.typeName_inj type user type' user' he he' h, name'] at name
      cases name
      cases type.symm.trans type'
      exact context.symm.trans context'
    | ofFunction _ _ kind' function' =>
      cases kind'.symm.trans hkc
      exact absurd h (hn.type_ne_function ho hs (fun _ => Outside.lt) type function' he he')
  | ofFunction parent _ kind function context =>
    cases kind.symm.trans hkb
    cases ho.placed hkc (hne hc) with
    | ofType _ _ kind' type' =>
      cases kind'.symm.trans hkc
      exact absurd h.symm (hn.type_ne_function ho hs (fun _ => Outside.lt) type' function he' he)
    | ofFunction parent' _ kind' function' context' =>
      cases kind'.symm.trans hkc
      have hparent := Option.some.inj ((parent.symm.trans hb).trans (parent'.symm.trans hc).symm)
      cases hn.function_inj ho hs hm function function' hparent he he' hr hr' h
      cases function.symm.trans function'
      exact context.symm.trans context'

end SymbolTable

end Codegen
