import Codegen.Proofs.Symbol.Spelling
import Codegen.Proofs.Symbol.Typed
import Codegen.Proofs.Value.Arena

/-!
# References to types

A mangle names types behind levels of pointers, one after another. The first time a type is spelled
in full, later it is an entry of the table, behind marks for the levels that are missing. The table
grows with each of them, but always so that it holds all levels of a type up to some level. That is
why the last entry which is not above a level is the nearest one.

* `Mangle.levels`, `levels_add`: the levels at which the table holds a type;
* `Mangle.Tiered`: **these levels follow one another**;
* `SymbolTable.refer`, `refer_inj`: references one after another can be read;
* `SymbolTable.Housed`: each type lies in the context that declares it, which belongs to a type;
* `Housed.refer_decodable`: **references to types of such tables can be read**;
* `not_refer_decodable`: but not those to types that lie elsewhere.
-/

namespace Codegen

/-- The first level of a type in the table. A built-in type itself is a letter and has no entry. -/
def Spelling.lowest (s : Spelling) : Nat := if s.isPrimitive then 1 else 0

theorem find?_reverse_range' (b n p : Nat) :
    (List.range' b n).reverse.find? (· ≤ p) =
      if n = 0 ∨ p < b then none else some (min p (b + n - 1)) := by
  induction n with
  | zero => rfl
  | succ n ih =>
    rw [List.range'_1_concat, List.reverse_append, List.reverse_singleton, List.singleton_append,
      List.find?_cons, ih]
    by_cases hp : b + n ≤ p
    · have hsome : ¬ (n + 1 = 0 ∨ p < b) := by omega
      have hmin : min p (b + (n + 1) - 1) = b + n := by omega
      rw [if_neg hsome, hmin, decide_eq_true hp]
    · rw [decide_eq_false hp]
      by_cases hb : p < b
      · rw [if_pos (.inr hb), if_pos (.inr hb)]
      · have hold : ¬ (n = 0 ∨ p < b) := by omega
        have hnew : ¬ (n + 1 = 0 ∨ p < b) := by omega
        have hmin : min p (b + n - 1) = min p (b + (n + 1) - 1) := by omega
        rw [if_neg hold, if_neg hnew, hmin]

namespace Mangle

variable {m m' : Mangle} {i j : TypeId} {s : Spelling} {d : Definition} {b n p : Nat}

/-! ## Levels of pointers -/

/-- The levels of pointers at which the table holds a type, in the order in which they came. -/
def levels (m : Mangle) (i : TypeId) : List Nat :=
  (m.definitions.filter (·.type == i)).map (·.pointers)

@[simp] theorem levels_addText (m : Mangle) (text : String) (i : TypeId) :
    (m.addText text).levels i = m.levels i := rfl

@[simp] theorem levels_define (m : Mangle) (i j : TypeId) (ls : List Nat) :
    (m.define i ls).levels j = m.levels j ++ if i = j then ls else [] := by
  rw [levels, define, List.filter_append, List.map_append, ← levels]
  congr 1
  have htype : ∀ d ∈ ls.zipIdx.map fun x => Definition.mk i (m.definitions.length + x.2) x.1,
      d.type = i := List.forall_mem_map.mpr fun _ _ => rfl
  split
  next h =>
    rw [List.filter_eq_self.mpr fun d hd => beq_iff_eq.mpr ((htype d hd).trans h), List.map_map]
    exact List.zipIdx_map_fst 0 ls
  next h =>
    rw [List.filter_eq_nil_iff.mpr fun d hd he => h ((htype d hd).symm.trans (beq_iff_eq.mp he)),
      List.map_nil]

theorem known?_pointers (m : Mangle) (i : TypeId) (p : Nat) :
    (m.known? i p).map (·.pointers) = (m.levels i).reverse.find? (· ≤ p) := by
  rw [known?, levels, ← List.map_reverse, ← List.filter_reverse, List.find?_map, List.find?_filter]
  simp only [Function.comp_def, Bool.decide_and, Bool.decide_eq_true]

theorem levels_addKnown (hi : d.type = i) (h : m.levels i = List.range' b n)
    (hd : p ≤ d.pointers ∨ d.pointers + 1 = b + n) :
    (m.addKnown d p).levels i = List.range' b (n + (p - d.pointers)) := by
  change ((m.define d.type _).addText _).levels i = _
  rw [levels_addText, levels_define, if_pos hi, h, ← List.range'_append_1]
  congr 1
  rcases hd with hp | hp
  · rw [Nat.sub_eq_zero_of_le hp]
    rfl
  · rw [← hp, List.range'_eq_map_range]
    exact List.map_congr_left fun k _ => Nat.add_right_comm d.pointers k 1

theorem levels_addNew (h : m.levels i = []) (s : Spelling) (p : Nat) :
    (m.addNew i s p).levels i = List.range' s.lowest (p + 1 - s.lowest) := by
  change ((m.define i _).addText _).levels i = _
  rw [levels_addText, levels_define, if_pos rfl, h, List.nil_append, List.range_eq_range']
  exact (List.drop_range' ..).trans (by rw [Nat.zero_add, Nat.mul_one, Spelling.lowest])

/-- **A reference fills up the levels of its type.** -/
theorem levels_add (h : m.levels i = List.range' s.lowest n) (p : Nat) :
    (m.add i s p).levels i = List.range' s.lowest (max n (p + 1 - s.lowest)) := by
  rw [add]
  split
  next hp =>
    rw [levels_addText, h, Spelling.lowest, if_pos hp.2, hp.1, Nat.max_eq_left (Nat.zero_le n)]
  next hp =>
    have hlowest : s.lowest ≤ p := by
      rw [Spelling.lowest]
      split
      next hs => exact Nat.one_le_iff_ne_zero.mpr fun h0 => hp ⟨h0, hs⟩
      next => exact Nat.zero_le p
    have hknown := m.known?_pointers i p
    rw [h, find?_reverse_range'] at hknown
    cases hd : m.known? i p with
    | some d =>
      rw [hd] at hknown
      split at hknown
      · cases hknown
      next hn =>
        have hlevel : d.pointers = min p (s.lowest + n - 1) := Option.some.inj hknown
        have hmax : max n (p + 1 - s.lowest) = n + (p - d.pointers) := by omega
        rw [hmax]
        exact levels_addKnown (known_spec hd).2.1 h (by omega)
    | none =>
      have hn : n = 0 := by
        rw [hd] at hknown
        split at hknown
        next hn => exact hn.resolve_right (Nat.not_lt.mpr hlowest)
        next => cases hknown
      subst hn
      rw [Nat.max_eq_right (Nat.zero_le _)]
      exact levels_addNew h s p

theorem levels_add_of_ne (h : i ≠ j) (s : Spelling) (p : Nat) :
    (m.add i s p).levels j = m.levels j := by
  rw [add]
  split
  · rfl
  · cases hd : m.known? i p with
    | some d => simp [addKnown, (known_spec hd).2.1, h]
    | none => simp [addNew, h]

/-- **The levels of each type follow one another**, from the lowest one on. -/
def Tiered (m : Mangle) (lowest : TypeId → Nat) : Prop :=
  ∀ i, ∃ n, m.levels i = List.range' (lowest i) n

theorem Tiered.start (lowest : TypeId → Nat) : Mangle.start.Tiered lowest := fun _ => ⟨0, rfl⟩

theorem Tiered.add {lowest : TypeId → Nat} (h : m.Tiered lowest) (hi : lowest i = s.lowest)
    (p : Nat) : (m.add i s p).Tiered lowest := by
  intro j
  obtain ⟨n, hn⟩ := h j
  by_cases hij : i = j
  · subst hij
    rw [hi] at hn ⊢
    exact ⟨_, levels_add hn p⟩
  · exact ⟨n, (levels_add_of_ne hij s p).trans hn⟩

end Mangle

namespace SymbolTable

variable {t : SymbolTable} {i : TypeId} {x : TypeInfo} {s : Spelling} {m m' : Mangle}
variable {rs rs' : List (TypeId × Nat)} {c p : ContextId}

/-! ## References one after another -/

/-- Appends references to types, each behind some levels of pointers. -/
def refer (t : SymbolTable) (m : Mangle) (rs : List (TypeId × Nat)) : Except Fault Mangle :=
  rs.foldlM (fun m (i, p) => return m.add i (← t.spelling i) p) m

theorem refer_cons {r : TypeId × Nat} : t.refer m (r :: rs) = .ok m' ↔
    ∃ s, t.spelling r.1 = .ok s ∧ t.refer (m.add r.1 s r.2) rs = .ok m' := by
  simp only [refer, List.foldlM_cons, bind_assoc, pure_bind, Arena.bind_eq_ok]

theorem refer_induction {P : Mangle → Prop} (hP : ∀ m i s p, P m → t.spelling i = .ok s →
    P (m.add i s p)) (hm : P m) (h : t.refer m rs = .ok m') : P m' := by
  induction rs generalizing m with
  | nil =>
    cases h
    exact hm
  | cons r rs ih =>
    obtain ⟨s, hs, h⟩ := refer_cons.mp h
    exact ih (hP m r.1 s r.2 hm hs) h

theorem refer_text (h : t.refer m rs = .ok m') : ∃ text, m'.value = m.value ++ text :=
  refer_induction (P := fun m' => ∃ text, m'.value = m.value ++ text)
    (fun m' i s p ⟨text, h⟩ _ => ⟨text ++ m'.referenceText i s p, by
      rw [Mangle.value_add, h, String.append_assoc]⟩) ⟨"", String.append_empty.symm⟩ h

theorem exists_refer (h : ∀ r ∈ rs, ∃ s, t.spelling r.1 = .ok s) (m : Mangle) :
    ∃ m', t.refer m rs = .ok m' := by
  induction rs generalizing m with
  | nil => exact ⟨m, rfl⟩
  | cons r rs ih =>
    obtain ⟨s, hs⟩ := h r List.mem_cons_self
    obtain ⟨m', hm'⟩ := ih (fun r hr => h r (List.mem_cons_of_mem _ hr)) (m.add r.1 s r.2)
    exact ⟨m', refer_cons.mpr ⟨s, hs, hm'⟩⟩

section

variable (hsp : Spelled fun i s => t.spelling i = .ok s)
include hsp

theorem refer_cons_ne {r : TypeId × Nat} (hm : m.Indexed) (h : t.refer m (r :: rs) = .ok m') :
    m'.value ≠ m.value := by
  obtain ⟨s, hs, h⟩ := refer_cons.mp h
  obtain ⟨text, htext⟩ := refer_text h
  intro he
  have he := congrArg String.toList he
  rw [htext, Mangle.value_add, String.append_assoc, String.toList_append,
    String.toList_append] at he
  have hempty := List.append_eq_nil_iff.mp (List.append_right_eq_self.mp he)
  exact Mangle.referenceText_ne hsp hm hs hempty.1

/-- **References one after another can be read** by those who know the table ahead of them. -/
theorem refer_inj {m₁ m₂ : Mangle} (hm : m.Indexed) (h₁ : t.refer m rs = .ok m₁)
    (h₂ : t.refer m rs' = .ok m₂) (he : m₁.value = m₂.value) : rs = rs' := by
  induction rs generalizing m rs' with
  | nil =>
    cases rs' with
    | nil => rfl
    | cons r' rs' =>
      cases h₁
      exact (refer_cons_ne hsp hm h₂ he.symm).elim
  | cons r rs ih =>
    cases rs' with
    | nil =>
      cases h₂
      exact (refer_cons_ne hsp hm h₁ he).elim
    | cons r' rs' =>
      obtain ⟨s, hs, h₁⟩ := refer_cons.mp h₁
      obtain ⟨s', hs', h₂⟩ := refer_cons.mp h₂
      have hfirst : r = r' := by
        obtain ⟨text, htext⟩ := refer_text h₁
        obtain ⟨text', htext'⟩ := refer_text h₂
        have he := congrArg String.toList he
        simp only [htext, htext', Mangle.value_add, String.toList_append, List.append_assoc] at he
        obtain ⟨hi, hp, -⟩ :=
          Mangle.referenceText_append_inj hsp hm hs hs' (List.append_cancel_left he)
        exact Prod.ext hi hp
      subst hfirst
      cases hsp.unique hs hs'
      rw [ih (hm.add r.1 s r.2) h₁ h₂]

end

/-! ## Types that lie where they are declared -/

/-- **A context of types**: the global one, or that of the members of a type. -/
def Houses (t : SymbolTable) (p : ContextId) : Prop :=
  p = globalContext ∨ ∃ x ∈ t.types, x.kind = .user ∧ x.context = p

instance (t : SymbolTable) (p : ContextId) : Decidable (t.Houses p) :=
  inferInstanceAs (Decidable (_ ∨ _))

/-- **A context of types declares a type** by its name. -/
def Declares (t : SymbolTable) (p : ContextId) (i : TypeId) : Prop :=
  t.Houses p ∧ t.types[i]?.any fun x =>
    decide (IsName x.name) && ((t.declarations p).types.lookup x.name == some i)

instance (t : SymbolTable) (p : ContextId) (i : TypeId) : Decidable (t.Declares p i) :=
  inferInstanceAs (Decidable (_ ∧ _))

theorem Declares.spec (h : t.Declares p i) (hx : t.types[i]? = some x) :
    IsName x.name ∧ (t.declarations p).types.lookup x.name = some i := by
  simpa [hx] using h.2

/-- **Each type of the program lies right below the context that declares it**, and no type is
around the global context. -/
structure Housed (t : SymbolTable) : Prop where
  around : ∃ cs, t.enclosing globalContext = .ok cs ∧ ∀ c ∈ cs, t.owner? c = none
  declared : ∀ x i, t.types[i]? = some x → x.kind = .user →
    ∃ p, t.Declares p i ∧ t.links.parent? x.context = some p

theorem forall_type_iff {P : TypeInfo → TypeId → Prop} :
    (∀ x i, t.types[i]? = some x → P x i) ↔ ∀ i : Fin t.types.size, P t.types[i] i := by
  refine ⟨fun h i => h _ _ (Array.getElem?_eq_getElem i.isLt), fun h x i hx => ?_⟩
  obtain ⟨hi, rfl⟩ := Array.getElem?_eq_some_iff.mp hx
  exact h ⟨i, hi⟩

theorem housed_iff : t.Housed ↔
    (t.enclosing globalContext).toOption.any (·.all (t.owner? · == none)) ∧
      ∀ i : Fin t.types.size, t.types[i].kind = .user →
        (t.links.parent? t.types[i].context).any (decide <| t.Declares · i) := by
  have haround : (∃ cs, t.enclosing globalContext = .ok cs ∧ ∀ c ∈ cs, t.owner? c = none) ↔
      (t.enclosing globalContext).toOption.any (·.all (t.owner? · == none)) := by
    cases t.enclosing globalContext <;> simp [Except.toOption]
  have hdeclared (x : TypeInfo) (i : TypeId) :
      (∃ p, t.Declares p i ∧ t.links.parent? x.context = some p) ↔
        (t.links.parent? x.context).any (decide <| t.Declares · i) := by
    cases t.links.parent? x.context <;> simp
  rw [← haround, ← forall_type_iff (P := fun x i => x.kind = .user →
    (t.links.parent? x.context).any (decide <| t.Declares · i))]
  simp only [← hdeclared]
  exact ⟨fun h => ⟨h.around, h.declared⟩, fun h => ⟨h.1, h.2⟩⟩

instance (t : SymbolTable) : Decidable t.Housed := decidable_of_iff' _ housed_iff

/-! ## Spellings -/

theorem Housed.cases (h : t.Housed) (hc : t.Houses c) : c = globalContext ∨
    ∃ x i p, t.types[i]? = some x ∧ x.kind = .user ∧ x.context = c ∧ t.Declares p i ∧
      t.links.parent? c = some p := by
  rcases hc with rfl | ⟨x, hx, hu, rfl⟩
  · exact .inl rfl
  · obtain ⟨i, hi⟩ := Array.mem_iff_getElem?.mp hx
    obtain ⟨p, hdeclares, hparent⟩ := h.declared x i hi hu
    exact .inr ⟨x, i, p, hi, hu, rfl, hdeclares, hparent⟩

theorem Housed.lodged (h : t.Housed) (ht : t.Typed) (hs : t.Sound) {cs : List ContextId}
    (ha : t.links.Ascent c cs) (hc : t.Houses c) : ∃ is, t.Lodged c is := by
  have hglobal : t.Lodged globalContext [] := .global fun ds hds c hc => by
    obtain ⟨cs, hcs, hnone⟩ := h.around
    obtain ⟨cs', hcs', hup⟩ := enclosing_ascent hs.forest (lt_size_of_enclosing hcs)
    cases hcs.symm.trans hcs'
    exact hnone c (hup.mem_iff.mpr (hds.mem_iff.mp hc))
  -- The context that declares a type is right above it, so the way up leads through types.
  induction ha with
  | root hp =>
    rcases h.cases hc with rfl | ⟨_, _, _, -, -, -, -, hparent⟩
    · exact ⟨[], hglobal⟩
    · cases hp.symm.trans hparent
  | up hp _ ih =>
    rcases h.cases hc with rfl | ⟨x, i, p, hi, hu, rfl, hdeclares, hparent⟩
    · exact ⟨[], hglobal⟩
    · cases hp.symm.trans hparent
      obtain ⟨is, his⟩ := ih hdeclares.1
      exact ⟨_, his.ofType hparent (ht.kind?_context hi hu) hi hu rfl (hdeclares.spec hi).2⟩

theorem exists_type_of_spelling (h : t.spelling i = .ok s) : ∃ x, t.types[i]? = some x := by
  rw [spelling, Arena.bind_eq_ok] at h
  obtain ⟨x, hx, -⟩ := h
  rw [typeInfo] at hx
  cases hi : t.types[i]? with
  | none =>
    rw [hi] at hx
    cases hx
  | some x => exact ⟨x, rfl⟩

/-- Each type of such a table is in a context in which only types are around. -/
theorem Housed.exists_lodged (h : t.Housed) (ht : t.Typed) (hs : t.Sound)
    (hx : t.types[i]? = some x) (hu : x.kind = .user) : ∃ is, t.Lodged x.context is := by
  obtain ⟨cs, -, ha⟩ := enclosing_ascent hs.forest (lt_size_of_kind? (ht.kind?_context hx hu))
  exact h.lodged ht hs ha (.inr ⟨x, Array.mem_of_getElem? hx, hu, rfl⟩)

/-- **Each type of such a table has a spelling.** -/
theorem Housed.exists_spelling (h : t.Housed) (ht : t.Typed) (hs : t.Sound)
    (hi : i < t.types.size) : ∃ s, t.spelling i = .ok s := by
  have hx := Array.getElem?_eq_getElem hi
  cases hc : t.types[i].code? with
  | some code => exact ⟨_, spelling_builtIn hx hc⟩
  | none =>
    have hu := (code?_eq_none _).mp hc
    obtain ⟨is, his⟩ := h.exists_lodged ht hs hx hu
    exact ⟨_, his.spelling_eq hs.forest hx hu (ht.kind?_context hx hu)⟩

/-- **The spellings of such tables tell types apart.** -/
theorem Housed.spelled (h : t.Housed) (ht : t.Typed) (hs : t.Sound) :
    Spelled fun i s => t.spelling i = .ok s := by
  have hspelled := spelled_of_lodged (P := fun i => ∃ x, t.types[i]? = some x) hs.forest
    ht.eq_of_kind_eq ht.kind?_context
    (fun i x hx hu => by
      obtain ⟨p, hp, -⟩ := h.declared x i hx hu
      exact (hp.spec hx).1)
    fun i ⟨x, hx⟩ => ⟨x, hx, h.exists_lodged ht hs hx⟩
  have hiff : (fun i s => (∃ x, t.types[i]? = some x) ∧ t.spelling i = .ok s) =
      fun i s => t.spelling i = .ok s := by
    funext i s
    exact propext ⟨And.right, fun hi => ⟨exists_type_of_spelling hi, hi⟩⟩
  exact hiff ▸ hspelled

theorem isPrimitive_of_spelling (hx : t.types[i]? = some x) (h : t.spelling i = .ok s) :
    s.isPrimitive = x.isPrimitive := by
  rw [spelling_eq (typeInfo_eq hx)] at h
  cases hc : x.code? with
  | some code =>
    rw [hc] at h
    cases h
    obtain ⟨-, hu, -⟩ := kind_of_code? hc
    simp [Spelling.isPrimitive, TypeInfo.isPrimitive, hu]
  | none =>
    rw [hc] at h
    obtain ⟨_, -, h⟩ := Arena.bind_eq_ok.mp h
    obtain ⟨names, -, h⟩ := Arena.bind_eq_ok.mp h
    cases h
    simp [Spelling.isPrimitive, TypeInfo.isPrimitive, (code?_eq_none x).mp hc]

/-- The lowest level of a type in a table of definitions. -/
def lowest (t : SymbolTable) (i : TypeId) : Nat := if t.types[i]?.any (·.isPrimitive) then 1 else 0

theorem lowest_of_spelling (h : t.spelling i = .ok s) : t.lowest i = s.lowest := by
  obtain ⟨x, hx⟩ := exists_type_of_spelling h
  rw [lowest, hx, Option.any_some, Spelling.lowest, isPrimitive_of_spelling hx h]

/-- **References to types can be read**, in every table whose types lie where they are declared:
texts are equal only if all types and levels of pointers are. The entries of the table know their
places, the levels of each type follow one another, and a type refers to an entry of its own some
levels below, behind as many marks. It is spelled in full if there is none, or as a letter. -/
theorem Housed.refer_decodable (h : t.Housed) (hr : Reached t) :
    (∀ rs : List (TypeId × Nat), (∀ r ∈ rs, r.1 < t.types.size) →
      ∃ m, t.refer .start rs = .ok m) ∧
    (∀ rs rs' m m', t.refer .start rs = .ok m → t.refer .start rs' = .ok m' →
      m.value = m'.value → rs = rs') ∧
    ∀ rs m, t.refer .start rs = .ok m → m.Indexed ∧ m.Tiered t.lowest ∧
      ∀ i s p, t.spelling i = .ok s →
        ∃ text, (m.add i s p).value = m.value ++ text ∧ m.Refers i s p text := by
  have hsp := h.spelled hr.typed hr.sound
  refine ⟨fun rs hrs => ?_, fun rs rs' m m' hm hm' he => ?_, fun rs m hm => ?_⟩
  · exact exists_refer (fun r hmem => h.exists_spelling hr.typed hr.sound (hrs r hmem)) .start
  · exact refer_inj hsp .start hm hm' he
  · have hindexed : m.Indexed :=
      refer_induction (P := Mangle.Indexed) (fun _ i s p hm _ => hm.add i s p) .start hm
    have htiered : m.Tiered t.lowest :=
      refer_induction (P := (·.Tiered t.lowest))
        (fun _ _ _ p hm hs => hm.add (lowest_of_spelling hs) p) (.start _) hm
    exact ⟨hindexed, htiered, fun i s p _ =>
      ⟨m.referenceText i s p, m.value_add i s p, hindexed.refers i s p⟩⟩

/-- A type with a type in it, and another one of that name. -/
def vectors : List Change := [.newType 0 "Vec", .newType 1 "Item", .newType 0 "Item"]

/-- References to all of them and to a built-in type. -/
def vectorReferences : List (TypeId × Nat) :=
  [(11, 0), (11, 2), (12, 1), (13, 1), (6, 2), (11, 2), (6, 1)]

theorem refer_decodable_vectors : ∃ t m, Change.after? .start vectors = some t ∧
    t.refer .start vectorReferences = .ok m ∧
    m.value = "_VN3VecEPPS_PN3Vec4ItemEPN4ItemEPPxS1_S6_" ∧ m.Tiered t.lowest ∧
    ∀ rs m', t.refer .start rs = .ok m' → m'.value = m.value → rs = vectorReferences := by
  have hdone : (Change.after? .start vectors).any fun t => decide t.Housed &&
      match t.refer .start vectorReferences with
      | .ok m => m.value == "_VN3VecEPPS_PN3Vec4ItemEPN4ItemEPPxS1_S6_"
      | .error _ => false := by decide +kernel
  obtain ⟨t, ht, hfits⟩ := (Option.any_eq_true _ _).mp hdone
  rw [Bool.and_eq_true, decide_eq_true_eq] at hfits
  obtain ⟨hhoused, hm⟩ := hfits
  have hdecodable := hhoused.refer_decodable (Reached.start.after ht)
  split at hm
  next m hrefer =>
    refine ⟨t, m, ht, hrefer, beq_iff_eq.mp hm, (hdecodable.2.2 _ _ hrefer).2.1, ?_⟩
    exact fun rs m' hm' he => hdecodable.2.1 _ _ _ _ hm' hrefer he
  next => cases hm

/-- A type that is put below a type which has one of the same name. -/
def movedType : List Change := [.newType 0 "T", .newType 0 "U", .newType 2 "T", .link 1 2]

/-- **A type that lies elsewhere** is spelled like the one that is declared there. -/
theorem not_refer_decodable : ¬ ∀ t, Reached t →
    (∀ x i, t.types[i]? = some x → x.kind = .user → ∃ p, t.Declares p i) →
    ∀ rs rs' m m', t.refer .start rs = .ok m → t.refer .start rs' = .ok m' →
      m.value = m'.value → rs = rs' := by
  intro hall
  have hdone : (Change.after? .start movedType).any fun t =>
      decide (∀ i : Fin t.types.size, t.types[i].kind = .user → ∃ p ∈ [0, 2], t.Declares p i) &&
        match t.refer .start [(11, 0)], t.refer .start [(13, 0)] with
        | .ok m, .ok m' => m.value == m'.value
        | _, _ => false := by decide +kernel
  obtain ⟨t, ht, hfits⟩ := (Option.any_eq_true _ _).mp hdone
  rw [Bool.and_eq_true, decide_eq_true_eq] at hfits
  obtain ⟨hdeclared, hm⟩ := hfits
  have hdeclared := (forall_type_iff (P := fun x i => x.kind = .user →
    ∃ p ∈ [0, 2], t.Declares p i)).mpr hdeclared
  split at hm
  next m m' hrefer hrefer' =>
    have hsame := hall t (Reached.start.after ht)
      (fun x i hx hu => (hdeclared x i hx hu).imp fun _ => And.right) _ _ m m' hrefer hrefer'
      (beq_iff_eq.mp hm)
    cases hsame
  next => cases hm

end SymbolTable

end Codegen
