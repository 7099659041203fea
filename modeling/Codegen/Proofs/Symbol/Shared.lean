import Codegen.Proofs.Symbol.Supertypes
import Codegen.Proofs.Symbol.Typed
import Codegen.Resolution.Name

/-!
# Shared types

The shared type of some types is found from the first to the last of them: numbers widen, other
types meet at a common supertype. Each step gives a type that both can be used as, and types can be
used as others step by step, as long as no built-in type is in the hierarchy.

* `SymbolTable.Hierarchy`: supertypes are types, and not built-in ones;
* `SymbolTable.Usable`, `Usable.trans`, `accepts_iff`: **the types that a type can be used as**;
* `Typed.sharedKnown_spec`: both types can be used as their shared type;
* `Format.breadth`, `Format.widest`: the order of widening;
* `Reached.sharedTypes_usable`: **all types of a list can be used as their shared type.**
-/

namespace Codegen

open Relation

namespace SymbolTable

variable {t : SymbolTable} {a b i j k s : TypeId} {x y : TypeInfo} {f g : Format}

/-! ## Types that can be used as others -/

/-- **The supertypes are types**, and no built-in type has or is a supertype. -/
structure Hierarchy (t : SymbolTable) : Prop where
  exist : ∀ k, ∀ j ∈ t.direct k, j < t.types.size
  builtIn : ∀ i x, t.types[i]? = some x → x.isPrimitive = true →
    t.direct i = [] ∧ ∀ k, i ∉ t.direct k

/-- Is the type a number type? -/
def Numeric (t : SymbolTable) (i : TypeId) : Prop := ∃ x, t.types[i]? = some x ∧ x.isNumber = true

/-- **A type can be used as itself**, as its supertypes, and as any number if it is one. -/
def Usable (t : SymbolTable) (i s : TypeId) : Prop :=
  i = s ∨ TransGen t.Super i s ∨ t.Numeric i ∧ t.Numeric s

theorem isNumber_iff : x.isNumber = true ↔ ∃ f, x.kind = .number f := by
  rw [TypeInfo.isNumber]
  cases x.kind <;> simp

theorem numeric_of (hx : t.types[i]? = some x) (hf : x.kind = .number f) : t.Numeric i :=
  ⟨x, hx, isNumber_iff.mpr ⟨f, hf⟩⟩

theorem numeric_iff (hx : t.types[i]? = some x) : t.Numeric i ↔ x.isNumber = true :=
  ⟨fun ⟨_, hy, hn⟩ => Option.some.inj (hx.symm.trans hy) ▸ hn, fun hn => ⟨x, hx, hn⟩⟩

namespace Hierarchy

theorem numeric (h : t.Hierarchy) (hi : t.Numeric i) : t.direct i = [] ∧ ∀ k, i ∉ t.direct k := by
  obtain ⟨x, hx, hn⟩ := hi
  refine h.builtIn i x hx ?_
  obtain ⟨f, hf⟩ := isNumber_iff.mp hn
  simp [TypeInfo.isPrimitive, hf]

theorem not_below (h : t.Hierarchy) (hi : t.Numeric i) : ¬ TransGen t.Super i s := fun hs => by
  obtain ⟨k, hk, -⟩ := TransGen.head'_iff.mp hs
  rw [Super, (h.numeric hi).1] at hk
  cases hk

theorem not_above (h : t.Hierarchy) (hs : t.Numeric s) : ¬ TransGen t.Super i s := fun hi => by
  obtain ⟨k, -, hk⟩ := TransGen.tail'_iff.mp hi
  exact (h.numeric hs).2 k hk

end Hierarchy

/-- **Types can be used as others step by step.** -/
theorem Usable.trans (h : t.Hierarchy) (hi : t.Usable i j) (hj : t.Usable j s) :
    t.Usable i s := by
  rcases hi with rfl | hi | ⟨hi, hij⟩
  · exact hj
  · rcases hj with rfl | hj | ⟨hj, -⟩
    · exact .inr (.inl hi)
    · exact .inr (.inl (hi.trans hj))
    · exact (h.not_above hj hi).elim
  · rcases hj with rfl | hj | ⟨-, hs⟩
    · exact .inr (.inr ⟨hi, hij⟩)
    · exact (h.not_below hij hj).elim
    · exact .inr (.inr ⟨hi, hs⟩)

/-- **A parameter of a type accepts the types that can be used as it.** -/
theorem accepts_iff (h : t.Hierarchy) (hi : i < t.types.size) (hs : s < t.types.size) :
    t.accepts (some s) i = .ok true ↔ t.Usable i s := by
  obtain ⟨js, n, hjs, hl, -⟩ := supertypes_found h.exist hi
  have hx : t.types[i]? = some t.types[i] := Array.getElem?_eq_getElem hi
  have hy : t.types[s]? = some t.types[s] := Array.getElem?_eq_getElem hs
  have hinherits : t.inherits i s = .ok (js.contains s) := by rw [inherits, hjs]; rfl
  rw [Usable, ← hl.mem_iff, numeric_iff hx, numeric_iff hy, accepts]
  by_cases he : s = i
  · simp [he, pure, Except.pure]
  · simp only [he, if_false, hinherits, typeInfo_eq hx, typeInfo_eq hy, bind, Except.bind, pure,
      Except.pure]
    by_cases hm : s ∈ js
    · simp [hm]
    · simp only [List.contains_iff_mem, hm, if_false, false_or, Ne.symm he]
      cases hn : t.types[s].isNumber <;> simp

/-! ## Numbers -/

end SymbolTable

namespace Format

/-- The place of a format in the order of widening, with decimals on top. -/
def breadth (f : Format) : Nat := if f.isDecimal then 2 ^ 32 - 1 else f.rank

/-- The wider one of two formats. -/
def wider (f g : Format) : Format := if g.breadth < f.breadth then f else g

theorem breadth_inj {f g : Format} (h : f.breadth = g.breadth) : f = g := by
  cases f <;> cases g <;> first | rfl | exact absurd h (by decide)

theorem breadth_wider (f g : Format) : (f.wider g).breadth = max f.breadth g.breadth := by
  rw [wider]
  split <;> omega

/-- **The widest of some formats is one of them**, and they are not wider. -/
theorem foldl_wider (fs : List Format) (f : Format) :
    fs.foldl wider f ∈ f :: fs ∧ ∀ g ∈ f :: fs, g.breadth ≤ (fs.foldl wider f).breadth := by
  induction fs generalizing f with
  | nil => simp
  | cons g fs ih =>
    obtain ⟨hmem, hle⟩ := ih (f.wider g)
    have hhead := hle _ List.mem_cons_self
    rw [breadth_wider] at hhead
    rw [List.foldl_cons]
    refine ⟨?_, fun k hk => ?_⟩
    · rcases List.mem_cons.mp hmem with h | h
      · rw [h, wider]
        split <;> simp
      · simp [h]
    · rcases List.mem_cons.mp hk with rfl | hk
      · omega
      · rcases List.mem_cons.mp hk with rfl | hk
        · omega
        · exact hle k (List.mem_cons_of_mem _ hk)

/-- The widest of some formats depends on nothing but which formats they are. -/
theorem foldl_wider_eq {f g : Format} {fs gs : List Format} (h : ∀ k, k ∈ f :: fs ↔ k ∈ g :: gs) :
    fs.foldl wider f = gs.foldl wider g := by
  obtain ⟨hf, hfle⟩ := foldl_wider fs f
  obtain ⟨hg, hgle⟩ := foldl_wider gs g
  exact breadth_inj (Nat.le_antisymm (hgle _ ((h _).mp hf)) (hfle _ ((h _).mpr hg)))

end Format

namespace SymbolTable

variable {t : SymbolTable} {a b i j k s : TypeId} {x y : TypeInfo} {f g : Format}

theorem Typed.exists_ofFormat (h : t.Typed) (f : Format) :
    ∃ x, t.types[Primitive.ofFormat f]? = some x ∧ x.kind = .number f := by
  obtain ⟨n, hn⟩ := h.kinds
  have hi : (t.profile.toList.map (·.1))[Primitive.ofFormat f]? = some (.number f) := by
    rw [hn]
    cases f <;> rfl
  rw [List.getElem?_map, Array.getElem?_toList, profile, Array.getElem?_map, Option.map_map,
    Option.map_eq_some_iff] at hi
  exact hi

/-- **A number type is the built-in type of its format.** -/
theorem Typed.eq_ofFormat (h : t.Typed) (hx : t.types[i]? = some x) (hf : x.kind = .number f) :
    i = Primitive.ofFormat f := by
  obtain ⟨y, hy, hg⟩ := h.exists_ofFormat f
  refine h.eq_of_kind_eq hx hy ?_ (hf.trans hg.symm)
  rw [hf]
  nofun

theorem ofFormat_injective : Function.Injective Primitive.ofFormat := by
  intro f g h
  cases f <;> cases g <;> first | rfl | exact absurd h (by decide)

theorem sharedNumber_eq (f g : Format) :
    sharedNumber (Primitive.ofFormat f) (Primitive.ofFormat g) f g =
      Primitive.ofFormat (f.wider g) := by
  cases f <;> cases g <;> rfl

/-! ## Shared types -/

theorem Typed.exists_number (h : t.Typed) (hi : t.Numeric i) :
    ∃ f, i = Primitive.ofFormat f := by
  obtain ⟨x, hx, hn⟩ := hi
  obtain ⟨f, hf⟩ := isNumber_iff.mp hn
  exact ⟨f, h.eq_ofFormat hx hf⟩

theorem Typed.numeric_ofFormat (h : t.Typed) (f : Format) : t.Numeric (Primitive.ofFormat f) := by
  obtain ⟨x, hx, hf⟩ := h.exists_ofFormat f
  exact numeric_of hx hf

theorem Numeric.lt (h : t.Numeric i) : i < t.types.size := by
  obtain ⟨x, hx, -⟩ := h
  exact (Array.getElem?_eq_some_iff.mp hx).1

theorem Typed.sharedKnown_number (h : t.Typed) (f g : Format) :
    t.sharedKnown (Primitive.ofFormat f) (Primitive.ofFormat g) =
      .ok (some (Primitive.ofFormat (f.wider g))) := by
  obtain ⟨x, hx, hf⟩ := h.exists_ofFormat f
  obtain ⟨y, hy, hg⟩ := h.exists_ofFormat g
  rw [sharedKnown]
  split
  next he =>
    obtain rfl := ofFormat_injective he
    rw [Format.wider, ite_self]
    rfl
  next =>
    simp only [typeInfo_eq hx, typeInfo_eq hy, bind, Except.bind, hf, hg, sharedNumber_eq]
    rfl

/-- **Both types can be used as their shared type**, if they have one. -/
theorem Typed.sharedKnown_spec (h : t.Typed) (hh : t.Hierarchy) (ha : a < t.types.size)
    (hb : b < t.types.size) : ∃ r, t.sharedKnown a b = .ok r ∧
      ∀ s, r = some s → s < t.types.size ∧ t.Usable a s ∧ t.Usable b s := by
  have hx : t.types[a]? = some t.types[a] := Array.getElem?_eq_getElem ha
  have hy : t.types[b]? = some t.types[b] := Array.getElem?_eq_getElem hb
  by_cases hab : a = b
  · subst hab
    refine ⟨some a, by rw [sharedKnown, if_pos rfl]; rfl, ?_⟩
    rintro s hs
    cases hs
    exact ⟨ha, .inl rfl, .inl rfl⟩
  by_cases hnumbers : t.Numeric a ∧ t.Numeric b
  · obtain ⟨f, rfl⟩ := h.exists_number hnumbers.1
    obtain ⟨g, rfl⟩ := h.exists_number hnumbers.2
    refine ⟨_, h.sharedKnown_number f g, ?_⟩
    rintro s hs
    cases hs
    have hwider := h.numeric_ofFormat (f.wider g)
    exact ⟨hwider.lt, .inr (.inr ⟨hnumbers.1, hwider⟩), .inr (.inr ⟨hnumbers.2, hwider⟩)⟩
  · obtain ⟨js, n, hjs, hl, -⟩ := supertypes_found hh.exist hb
    have hshared : t.sharedKnown a b = .ok ((t.direct a).find? js.contains) := by
      rw [numeric_iff hx, numeric_iff hy, isNumber_iff, isNumber_iff] at hnumbers
      rw [sharedKnown, if_neg hab]
      simp only [typeInfo_eq hx, typeInfo_eq hy, bind, Except.bind, hjs, direct, hx]
      split
      next f g hf hg => exact (hnumbers ⟨⟨f, hf⟩, g, hg⟩).elim
      next => rfl
    refine ⟨_, hshared, fun s hs => ?_⟩
    have hsa : t.Super a s := List.mem_of_find?_eq_some hs
    have hsb : s ∈ js := by simpa using List.find?_some hs
    exact ⟨hh.exist a s hsa, .inr (.inl (.single hsa)), .inr (.inl ((hl.mem_iff s).mp hsb))⟩

theorem foldlM_sharedType_none (l : List (Option TypeId)) :
    l.foldlM t.sharedType none = .ok none := by
  induction l with
  | nil => rfl
  | cons a l ih =>
    rw [List.foldlM_cons]
    exact ih

/-- **All types can be used as the shared type of a list**, if they have one. -/
theorem Typed.foldlM_sharedType (h : t.Typed) (hh : t.Hierarchy) {l : List TypeId}
    (ha : a < t.types.size) (hl : ∀ i ∈ l, i < t.types.size) :
    ∃ r, (l.map some).foldlM t.sharedType (some a) = .ok r ∧
      ∀ s, r = some s → s < t.types.size ∧ ∀ i ∈ a :: l, t.Usable i s := by
  induction l generalizing a with
  | nil =>
    refine ⟨some a, rfl, ?_⟩
    rintro s hs
    cases hs
    exact ⟨ha, fun i hi => .inl (List.mem_singleton.mp hi)⟩
  | cons b l ih =>
    obtain ⟨r, hr, hspec⟩ := h.sharedKnown_spec hh ha (hl b List.mem_cons_self)
    have hrest := fun i hi => hl i (List.mem_cons_of_mem b hi)
    rw [List.map_cons, List.foldlM_cons, sharedType, hr]
    cases r with
    | none => exact ⟨none, foldlM_sharedType_none _, nofun⟩
    | some c =>
      obtain ⟨hc, hac, hbc⟩ := hspec c rfl
      obtain ⟨r, hr, hfold⟩ := ih hc hrest
      refine ⟨r, hr, fun s hs => ?_⟩
      obtain ⟨hs, hall⟩ := hfold s hs
      have hcs := hall c List.mem_cons_self
      refine ⟨hs, fun i hi => ?_⟩
      rcases List.mem_cons.mp hi with rfl | hi
      · exact hac.trans hh hcs
      rcases List.mem_cons.mp hi with rfl | hi
      · exact hbc.trans hh hcs
      · exact hall i (List.mem_cons_of_mem c hi)

theorem Typed.foldlM_number (h : t.Typed) (f : Format) (fs : List Format) :
    ((fs.map Primitive.ofFormat).map some).foldlM t.sharedType (some (Primitive.ofFormat f)) =
      .ok (some (Primitive.ofFormat (fs.foldl Format.wider f))) := by
  induction fs generalizing f with
  | nil => rfl
  | cons g fs ih =>
    rw [List.map_cons, List.map_cons, List.foldlM_cons, sharedType, h.sharedKnown_number]
    exact ih (f.wider g)

theorem Typed.exists_formats (h : t.Typed) {l : List TypeId} (hl : ∀ i ∈ l, t.Numeric i) :
    ∃ fs : List Format, l = fs.map Primitive.ofFormat := by
  induction l with
  | nil => exact ⟨[], rfl⟩
  | cons i l ih =>
    obtain ⟨f, rfl⟩ := h.exists_number (hl i List.mem_cons_self)
    obtain ⟨fs, rfl⟩ := ih fun j hj => hl j (List.mem_cons_of_mem _ hj)
    exact ⟨f :: fs, rfl⟩

/-- **Numbers have a shared type**, whatever their order and however often they occur. -/
theorem Typed.sharedTypes_number (h : t.Typed) {l l' : List TypeId} (hne : l ≠ [])
    (hl : ∀ i ∈ l, t.Numeric i) (hmem : ∀ i, i ∈ l ↔ i ∈ l') :
    ∃ s, t.sharedTypes (l.map some) = .ok (some s) ∧
      t.sharedTypes (l'.map some) = .ok (some s) := by
  obtain ⟨fs, rfl⟩ := h.exists_formats hl
  obtain ⟨gs, rfl⟩ := h.exists_formats fun i hi => hl i ((hmem i).mpr hi)
  have hformats (k : Format) : k ∈ fs ↔ k ∈ gs := by
    have hk := hmem (Primitive.ofFormat k)
    rwa [List.mem_map_of_injective ofFormat_injective,
      List.mem_map_of_injective ofFormat_injective] at hk
  obtain ⟨f, fs, rfl⟩ := List.exists_cons_of_ne_nil (show fs ≠ [] by rintro rfl; exact hne rfl)
  obtain ⟨g, gs, rfl⟩ := List.exists_cons_of_ne_nil (List.ne_nil_of_mem
    ((hformats f).mp List.mem_cons_self))
  refine ⟨_, h.foldlM_number f fs, ?_⟩
  rw [Format.foldl_wider_eq hformats]
  exact h.foldlM_number g gs

/-- **A shared type can hold every element.** In every table that changes lead to, if no built-in
type has or is a supertype: each type of a list of types can be used as their shared type, if they
have one, and a parameter of that type accepts it. Number types have a shared type, which does not
depend on their order or on how often they occur. -/
theorem sharedTypes_usable (h : Reached t) (hh : t.Hierarchy) :
    (∀ l : List TypeId, (∀ i ∈ l, i < t.types.size) →
      ∃ r, t.sharedTypes (l.map some) = .ok r ∧
        ∀ s, r = some s → ∀ i ∈ l, t.accepts (some s) i = .ok true ∧ t.Usable i s) ∧
    ∀ l l' : List TypeId, l ≠ [] → (∀ i ∈ l, t.Numeric i) → (∀ i, i ∈ l ↔ i ∈ l') →
      ∃ s, t.sharedTypes (l.map some) = .ok (some s) ∧
        t.sharedTypes (l'.map some) = .ok (some s) := by
  refine ⟨fun l hl => ?_, fun l l' hne hl hmem => h.typed.sharedTypes_number hne hl hmem⟩
  cases l with
  | nil => exact ⟨none, rfl, nofun⟩
  | cons a l =>
    obtain ⟨r, hr, hspec⟩ := h.typed.foldlM_sharedType hh (hl a List.mem_cons_self)
      fun i hi => hl i (List.mem_cons_of_mem a hi)
    refine ⟨r, hr, fun s hs i hi => ?_⟩
    obtain ⟨hs, hall⟩ := hspec s hs
    exact ⟨(accepts_iff hh (hl i hi) hs).mpr (hall i hi), hall i hi⟩

/-- Two types with a common supertype. -/
def kindred : List Change :=
  [.newType 0 "A", .newType 0 "B", .newType 0 "C", .supertype 11 13, .supertype 12 13]

theorem sharedTypes_kindred : ∃ t, Change.after? .start kindred = some t ∧ t.Hierarchy ∧
    t.sharedTypes [some 11, some 12] = .ok (some 13) ∧ t.accepts (some 13) 12 = .ok true ∧
    ∃ s, t.sharedTypes [some 0, some 7] = .ok (some s) ∧
      t.sharedTypes [some 7, some 7, some 0] = .ok (some s) := by
  have hdone : (Change.after? .start kindred).any fun t =>
      decide ((∀ k < t.types.size, ∀ j ∈ t.direct k, 11 ≤ j ∧ j < t.types.size) ∧
        (∀ k < (11 : TypeId), t.direct k = []) ∧ t.sharedTypes [some 11, some 12] = .ok (some 13) ∧
        t.types.size = 14) := by decide +kernel
  obtain ⟨t, ht, hall⟩ := (Option.any_eq_true _ _).mp hdone
  obtain ⟨hexist, hlow, hshared, hsize⟩ := of_decide_eq_true hall
  have hr := Reached.start.after ht
  have hdirect (k : TypeId) : ∀ j ∈ t.direct k, 11 ≤ j ∧ j < t.types.size := by
    by_cases hk : k < t.types.size
    · exact hexist k hk
    · rw [direct, Array.getElem?_eq_none (Nat.le_of_not_lt hk)]
      intro j hj
      cases hj
  have hh : t.Hierarchy := by
    refine ⟨fun k j hj => (hdirect k j hj).2, fun i x hx hb => ?_⟩
    rcases hr.typed.kind_eq hx with ⟨hlt, -⟩ | ⟨-, hu⟩
    · exact ⟨hlow i hlt, fun k hk => absurd (hdirect k i hk).1 (Nat.not_le.mpr hlt)⟩
    · simp [TypeInfo.isPrimitive, hu] at hb
  obtain ⟨hlist, hnumbers⟩ := sharedTypes_usable hr hh
  obtain ⟨r, hres, haccepts⟩ := hlist [11, 12] (by simp [hsize])
  obtain rfl : r = some 13 := Except.ok.inj (hres.symm.trans hshared)
  refine ⟨t, ht, hh, hshared, (haccepts 13 rfl 12 (by simp)).1,
    hnumbers [0, 7] [7, 7, 0] (by simp) (fun i hi => ?_) (by simp [or_comm])⟩
  rcases List.mem_cons.mp hi with rfl | hi
  · exact hr.typed.numeric_ofFormat .i8
  · obtain rfl := List.mem_singleton.mp hi
    exact hr.typed.numeric_ofFormat .u64

end SymbolTable

end Codegen
