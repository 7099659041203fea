import Codegen.Proofs.Instruction.Jump
import Codegen.Proofs.Lowering.Kept
import Codegen.Proofs.Lowering.Shaped

/-!
# Lowering a tree lowers the shape that it shows

While a tree is lowered it goes on to show its shape, and each node is lowered as the part of the
shape that it is.

* `Shown`: the tree of a routine shows a shape;
* `conditioned_outlined`: the steps of a condition are those of its shape;
* `Reads`: a lowering of nodes lowers parts of a shape;
* `lowerWithin_reads`: **the lowering of a tree is the lowering of its shape**.
-/

namespace Codegen

/-- The second tree has the nodes of the first one. -/
structure Tree.Extends (t t' : Tree) : Prop where
  size : t.size ≤ t'.size
  kind : ∀ {m : NodeId}, m < t.size → t'.kind m = t.kind m

theorem Tree.Extends.trans {t t' t'' : Tree} (h : t.Extends t') (h' : t'.Extends t'') :
    t.Extends t'' :=
  ⟨Nat.le_trans h.size h'.size, fun hm =>
    (h'.kind (Nat.lt_of_lt_of_le hm h.size)).trans (h.kind hm)⟩

namespace Generating

variable {W s q c : Shape} {base : Nat} {symbols : SymbolTable} {path ss : List Shape} {pl : Place}
variable {r r' r'' r₁ r₂ : Routine} {u : Unit} {n : NodeId} {lower : Lowering} {sub : PartLowering}
variable {v : VariableId} {x y z : ValueId} {x? : Option ValueId} {actives : List Binding}
variable {t₀ : Tree}

/-! ## Routines that show a shape -/

/-- The tree of a routine shows a shape but for comparisons with zero. -/
structure Shown (W : Shape) (base : Nat) (symbols : SymbolTable) (r : Routine) : Prop where
  stands : Stands W base r.tree
  symbols : r.symbols = symbols

/-- A step behind which the tree shows the shape as before. -/
structure ShownThrough (W : Shape) (base : Nat) (symbols : SymbolTable) (r r' : Routine) :
    Prop where
  shown : Shown W base symbols r'
  extends' : r.tree.Extends r'.tree

theorem ShownThrough.trans (h : ShownThrough W base symbols r r')
    (h' : ShownThrough W base symbols r' r'') : ShownThrough W base symbols r r'' :=
  ⟨h'.shown, h.extends'.trans h'.extends'⟩

theorem Kept.through (h : Kept r r') (hr : Shown W base symbols r) :
    ShownThrough W base symbols r r' :=
  ⟨⟨h.tree ▸ hr.stands, h.symbols.trans hr.symbols⟩,
    ⟨Nat.le_of_eq (by rw [h.tree]), fun _ => by rw [h.tree]⟩⟩

theorem opened_through {start exit : Label} {symmetry : Nat}
    (h : Takes (openSymmetry n start exit actives) r symmetry r') (hr : Shown W base symbols r) :
    ShownThrough W base symbols r r' := by
  obtain ⟨r₁, h₁, rfl⟩ := openSymmetry_parts h
  have e := (Kept.marker h₁).through hr
  exact ⟨⟨e.shown.stands, e.shown.symbols⟩, e.extends'⟩

/-! ## Conditions -/

theorem takes_comparesSigned {l m : Shape} {b : Bool} :
    Takes (comparesSigned l.id m.id) r b r' ↔
      Shape.comparesSigned r.tree r.symbols l m = .ok b ∧ r' = r := by
  simp only [comparesSigned, takes_bind, takes_ask, takes_pure, Shape.comparesSigned,
    Arena.bind_eq_ok, Arena.pure_eq_ok]
  constructor
  · rintro ⟨f, _, ⟨hf, rfl⟩, g, _, ⟨hg, rfl⟩, hb, rfl⟩
    exact ⟨⟨f, hf, g, hg, hb⟩, rfl⟩
  · rintro ⟨⟨f, hf, g, hg, hb⟩, rfl⟩
    exact ⟨f, _, ⟨hf, rfl⟩, g, _, ⟨hg, rfl⟩, hb, rfl⟩

/-- What a comparison of two nodes is in the shape of a condition. -/
def Explained (t : Tree) (path : List Shape) (q : Shape) (a b : NodeId) : Prop :=
  ∃ path' x, q.Tests path path' x ∧
    ((∃ l m, x.kind.isComparison = true ∧ x.parts.head? = some l ∧ x.parts.getLast? = some m ∧
        a = l.id ∧ b = m.id) ∨
      x.kind.isTruth = true ∧ a = x.id ∧ b < t.size ∧ ∃ format, t.kind b = zeroOf format)

theorem Explained.mono {t t' : Tree} {a b : NodeId} (h : Explained t path q a b)
    (ht : t.Extends t') : Explained t' path q a b := by
  obtain ⟨path', x, hx, h⟩ := h
  refine ⟨path', x, hx, h.imp_right ?_⟩
  rintro ⟨hk, ha, hb, format, hz⟩
  exact ⟨hk, ha, Nat.lt_of_lt_of_le hb ht.size, format, (ht.kind hb).trans hz⟩

theorem Explained.part {t : Tree} {a b : NodeId} (h : Explained t (q :: path) c a b)
    (hk : q.kind.isConnective = true) (hc : c ∈ q.parts) : Explained t path q a b := by
  obtain ⟨path', x, hx, h⟩ := h
  exact ⟨path', x, .part hk hc hx, h⟩

/-- **The steps of a condition are those of its shape.** Only its own comparisons change the
tree. -/
theorem conditioned_outlined {f₀ f : NodeId → List NodeId} {seat₀ seat : NodeId → NodeId}
    {success failure : Label} {steps : List Step} (h₀ : Standing W base t₀ f₀ seat₀)
    (h : Conditioned n success failure r steps r') (hq : W.In .condition path q)
    (hst : Standing W base r.tree f seat) (hn : n = seat q.id) (hsym : r.symbols = symbols) :
    ∃ tree labels f' seat', r' = { r with tree, labels } ∧ Standing W base tree f' seat' ∧
      r.tree.Extends tree ∧
      (∀ {pl path' c}, W.In pl path' c → seat' c.id = seat c.id ∨ q.Tests path path' c) ∧
      Shape.Outlined t₀ symbols q success failure r.labels steps labels ∧
      ∀ a b, .compare a b ∈ steps → Explained tree path q a b := by
  induction h generalizing path q f seat with
  | @logical n left right o success failure r r₂ r' first second hk ho h1 h2 hne hl hr ihl ihr =>
    subst hn
    rcases hst.seated hq with he | ⟨-, -, -, hkind, -⟩
    · rw [he] at hk h1 h2
      have hqk : q.kind = .operator o := (hst.kind hq).symm.trans hk
      have hconn : q.kind.isConnective = true := by simpa [hqk, NodeKind.isConnective] using ho
      rw [hst.forest.first, hst.parts hq, List.head?_map, Option.map_eq_some_iff] at h1
      rw [hst.forest.last, hst.parts hq, List.getLast?_map, Option.map_eq_some_iff] at h2
      obtain ⟨l, hlp, rfl⟩ := h1
      obtain ⟨m, hmp, rfl⟩ := h2
      have hlq := List.mem_of_mem_head? hlp
      have hmq := List.mem_of_getLast? hmp
      have part {c} (hc : c ∈ q.parts) : W.In .condition (q :: path) c :=
        .part hq (by simp [Shape.places, hconn, hc])
      obtain ⟨tree, labels, f', seat', rfl, hst', hext, hseat, hout, hexp⟩ :=
        ihl (part hlq) hst rfl hsym
      -- the second operand stands where it stood, as the first one only changes its own parts
      have hm : seat' m.id = seat m.id := by
        refine (hseat (part hmq)).resolve_right fun ht => ?_
        rcases ht.length_le with hlt | ⟨-, rfl⟩
        · exact Nat.lt_irrefl _ hlt
        · exact hne rfl
      obtain ⟨tree', labels', f'', seat'', rfl, hst'', hext', hseat', hout', hexp'⟩ :=
        ihr (part hmq) hst' hm.symm hsym
      refine ⟨tree', labels', f'', seat'', rfl, hst'', hext.trans hext', fun hc => ?_,
        .logical hqk ho hlp hmp hout hout', fun a b hab => ?_⟩
      · rcases hseat' hc with h' | h'
        · rcases hseat hc with h | h
          · exact .inl (h'.trans h)
          · exact .inr (.part hconn hlq h)
        · exact .inr (.part hconn hmq h')
      · simp only [List.mem_append, List.mem_cons, reduceCtorEq, false_or] at hab
        rcases hab with hab | hab
        · exact ((hexp a b hab).mono hext').part hconn hlq
        · exact (hexp' a b hab).part hconn hmq
    · rw [hkind] at hk
      cases hk
      simp [Operator.isLogical, Operator.category] at ho
  | @comparison n o success failure r steps hk hl ho hc =>
    subst hn
    obtain ⟨left, right, comparison, signed, h1, h2, -, hcmp, hs, rfl⟩ := hc
    refine ⟨r.tree, r.labels, f, seat, rfl, hst, ⟨Nat.le_refl _, fun _ => rfl⟩,
      fun _ => .inl rfl, ?_⟩
    rcases hst.seated hq with he | ⟨-, htruth, -, hkind, z, hz, format, hzero⟩
    · rw [he] at hk h1 h2
      have hqk : q.kind = .operator o := (hst.kind hq).symm.trans hk
      have hconn : q.kind.isConnective = false := by simpa [hqk, NodeKind.isConnective] using hl
      have hscope : q.scope? = none := by simp [Shape.scope?, hqk]
      have hv : q.Valued .condition := .inr ⟨rfl, hconn⟩
      rw [hst.forest.first, hst.parts_eq hq hv, List.head?_map, Option.map_eq_some_iff] at h1
      rw [hst.forest.last, hst.parts_eq hq hv, List.getLast?_map, Option.map_eq_some_iff] at h2
      obtain ⟨l, hlp, rfl⟩ := h1
      obtain ⟨m, hmp, rfl⟩ := h2
      have hsame : Shape.comparesSigned t₀ symbols l m = .ok signed := by
        rw [takes_comparesSigned, hsym] at hs
        have hl := hq.operand hv hscope (List.mem_of_mem_head? hlp)
        have hm := hq.operand hv hscope (List.mem_of_getLast? hmp)
        rw [← hs.1, Shape.comparesSigned, Shape.comparesSigned,
          hst.formatOf_eq h₀ symbols hl (.inl rfl), hst.formatOf_eq h₀ symbols hm (.inl rfl)]
      refine ⟨.comparison hqk hcmp hlp hmp hsame, fun a b hab => ?_⟩
      obtain ⟨rfl, rfl⟩ : a = l.id ∧ b = m.id := by simpa using hab
      exact ⟨path, q, .here hconn, .inl ⟨l, m, by simpa [hqk, NodeKind.isComparison] using ho,
        hlp, hmp, rfl, rfl⟩⟩
    · rw [hkind] at hk
      cases hk
      obtain rfl : comparison = .notEqual := by
        simpa [Comparison.ofOperator?] using hcmp.symm
      rw [hst.forest.first, hz, List.head?_cons] at h1
      rw [hst.forest.last, hz] at h2
      obtain rfl : q.id = left := by simpa using h1
      obtain rfl : z = right := by simpa using h2
      have hzlt := (hst.forest.inside (p := seat q.id) (m := z) (by simp [hz])).2
      have hconn : q.kind.isConnective = false := by
        simp only [NodeKind.isTruth, Bool.and_eq_true, Bool.not_eq_true'] at htruth
        exact htruth.1
      refine ⟨.truth htruth, fun a b hab => ?_⟩
      obtain ⟨rfl, rfl⟩ : a = q.id ∧ b = z := by simpa using hab
      exact ⟨path, q, .here hconn, .inr ⟨htruth, rfl, hzlt, format, hzero⟩⟩
  | @nonzero n c success failure r r' steps hk hp hz hc =>
    subst hn
    obtain ⟨format, -, rfl, rfl⟩ := compareWithZero_parts hz
    obtain ⟨left, right, comparison, signed, h1, h2, -, hcmp, hs, rfl⟩ := hc
    rcases hst.seated hq with he | ⟨-, -, -, hkind, -⟩
    · rw [he] at hk hp h1 h2 ⊢
      rw [hst.kind hq] at hk hp
      have htruth : q.kind.isTruth = true := by
        unfold NodeKind.isTruth NodeKind.isConnective NodeKind.isComparison
        split <;> simp_all
      have hconn : q.kind.isConnective = false := by
        simp only [NodeKind.isTruth, Bool.and_eq_true, Bool.not_eq_true'] at htruth
        exact htruth.1
      have hst' := hst.comparedWithZero hq htruth he format
      obtain rfl : comparison = .notEqual := by
        simpa [Comparison.ofOperator?] using hcmp.symm
      have h1' := hst'.forest.first (r.tree.size + 1)
      have h2' := hst'.forest.last (r.tree.size + 1)
      simp only [if_true, List.head?_cons] at h1' h2'
      obtain rfl : q.id = left := by simpa [h1'] using h1
      obtain rfl : r.tree.size = right := by simpa [h2'] using h2
      refine ⟨_, r.labels, _, _, rfl, hst', ⟨?_, fun hm => ?_⟩, fun hc => ?_,
        .truth htruth, fun a b hab => ?_⟩
      · rw [Standing.size_comparedWithZero]
        exact Nat.le_add_right _ _
      · rw [Standing.kind_comparedWithZero, if_neg (Nat.ne_of_lt hm),
          if_neg (Nat.ne_of_lt (Nat.lt_succ_of_lt hm))]
      · split
        next hcq =>
          obtain ⟨-, rfl, rfl⟩ := hst.unique hc hq hcq
          exact .inr (.here hconn)
        next => exact .inl rfl
      · obtain ⟨rfl, rfl⟩ : a = q.id ∧ b = r.tree.size := by simpa using hab
        refine ⟨path, q, .here hconn, .inr ⟨htruth, rfl, ?_, format, ?_⟩⟩
        · rw [Standing.size_comparedWithZero]
          exact Nat.lt_add_of_pos_right (by decide)
        · simp [Standing.kind_comparedWithZero]
    · exact absurd (hk .notEquals hkind).2 (by decide)
  | @parenthesis n inner success failure r r' steps hk hl hi ih =>
    subst hn
    rcases hst.seated hq with he | ⟨-, -, -, hkind, -⟩
    · rw [he] at hk hl
      have hqk : q.kind = .parenthesis := (hst.kind hq).symm.trans hk
      have hconn : q.kind.isConnective = true := by simp [hqk, NodeKind.isConnective]
      rw [hst.forest.last, hst.parts hq, List.getLast?_map, Option.map_eq_some_iff] at hl
      obtain ⟨m, hmp, rfl⟩ := hl
      have hmq := List.mem_of_getLast? hmp
      obtain ⟨tree, labels, f', seat', rfl, hst', hext, hseat, hout, hexp⟩ :=
        ih (.part hq (by simp [Shape.places, hconn, hmq])) hst rfl hsym
      exact ⟨tree, labels, f', seat', rfl, hst', hext,
        fun hc => (hseat hc).imp_right (.part hconn hmq), .parenthesis hqk hmp hout,
        fun a b hab => (hexp a b hab).part hconn hmq⟩
    · rw [hkind] at hk
      cases hk

/-! ## Lowerings that read a shape -/

/-- **A lowering of nodes lowers the parts of a shape**, and literals that were put beside them. -/
structure Reads (W : Shape) (base : Nat) (symbols : SymbolTable) (lower : Lowering)
    (sub : PartLowering) : Prop where
  part : ∀ {pl path s r x? r'}, W.In pl path s → s.Valued pl → (x? = none → pl = .plain) →
    Shown W base symbols r → Takes (lower s.id) r x? r' → ShownThrough W base symbols r r' ∧
      ((∃ c, s.kind = .ifBranch c) → x? = none) ∧
      ∀ ss, ((∃ c, s.kind = .ifBranch c) → W.Tail path (s :: ss)) → sub path s ss r x? r'
  literal : ∀ {n v f r x r'}, r.tree.kind n = .number v f → Takes (lower n) r (some x) r' →
    Takes (create (.constant v) f) r x r'

variable (hl : Reads W base symbols lower sub)

include hl

theorem Reads.value (hs : W.In pl path s) (hv : s.Valued pl) (hr : Shown W base symbols r)
    (h : Takes (lower s.id) r (some x) r') :
    ShownThrough W base symbols r r' ∧ sub path s [] r (some x) r' := by
  obtain ⟨h₁, h₂, h₃⟩ := hl.part hs hv (by simp) hr h
  exact ⟨h₁, h₃ [] fun hc => absurd (h₂ hc) (by simp)⟩

theorem Reads.tail (hs : W.In .plain path s) (ht : W.Tail path (s :: ss))
    (hr : Shown W base symbols r) (h : Takes (lower s.id) r x? r') :
    ShownThrough W base symbols r r' ∧ sub path s ss r x? r' := by
  obtain ⟨h₁, -, h₃⟩ := hl.part hs (.inl rfl) (fun _ => rfl) hr h
  exact ⟨h₁, h₃ ss fun _ => ht⟩

/-! ### Lists of parts -/

theorem each_reads {rest : List Shape} (hr : Shown W base symbols r)
    (ht : W.Tail path (ss ++ rest)) (hin : ∀ s ∈ ss, W.In .plain path s)
    (h : LowersEach lower (ss.map (·.id)) r r') :
    ShownThrough W base symbols r r' ∧ Shape.EachPart sub path rest ss r r' := by
  induction ss generalizing r with
  | nil =>
    cases h
    exact ⟨(Kept.refl _).through hr, .nil⟩
  | cons s ss ih =>
    cases h with
    | cons h hs =>
      obtain ⟨h₁, h₁'⟩ := hl.tail (hin s List.mem_cons_self) ht hr h
      rcases ht.tail with hnil | ht
      · obtain ⟨rfl, rfl⟩ := List.append_eq_nil_iff.mp hnil
        cases hs
        exact ⟨h₁, .cons h₁' .nil⟩
      · obtain ⟨h₂, h₂'⟩ := ih h₁.shown ht (fun s hs => hin s (List.mem_cons_of_mem _ hs)) hs
        exact ⟨h₁.trans h₂, .cons h₁' h₂'⟩

theorem all_reads {xs : List ValueId} (hr : Shown W base symbols r)
    (hin : ∀ s ∈ ss, W.In .plain path s)
    (h : LowersAll lower (ss.map (·.id)) r xs r') :
    ShownThrough W base symbols r r' ∧ Shape.AllParts sub path ss r xs r' := by
  induction ss generalizing r xs with
  | nil =>
    cases h
    exact ⟨(Kept.refl _).through hr, .nil⟩
  | cons s ss ih =>
    cases h with
    | cons h hs =>
      obtain ⟨h₁, h₁'⟩ := hl.value (hin s List.mem_cons_self) (.inl rfl) hr h
      obtain ⟨h₂, h₂'⟩ := ih h₁.shown (fun s hs => hin s (List.mem_cons_of_mem _ hs)) hs
      exact ⟨h₁.trans h₂, .cons h₁' h₂'⟩

theorem stated_reads {y? : Option ValueId} (hr : Shown W base symbols r) (ht : ss = [] ∨ W.Tail path ss)
    (hin : ∀ s ∈ ss, W.In .plain path s) (h : Stated lower x? (ss.map (·.id)) r y? r') :
    ShownThrough W base symbols r r' ∧ Shape.StatedParts sub path x? ss r y? r' := by
  induction ss generalizing r x? with
  | nil =>
    cases h
    exact ⟨(Kept.refl _).through hr, .nil⟩
  | cons s ss ih =>
    have ht := ht.resolve_left (by simp)
    have hs := hin s List.mem_cons_self
    have hin' : ∀ s ∈ ss, W.In .plain path s := fun s hs => hin s (List.mem_cons_of_mem _ hs)
    obtain ⟨f, seat, hst⟩ := hr.stands
    cases h with
    | skip hk h =>
      rw [hst.kind hs] at hk
      obtain ⟨h₁, h₁'⟩ := ih hr ht.tail hin' h
      exact ⟨h₁, .skip hk h₁'⟩
    | cons hk h h' =>
      rw [hst.kind hs] at hk
      obtain ⟨h₁, h₁'⟩ := hl.tail hs ht hr h
      obtain ⟨h₂, h₂'⟩ := ih h₁.shown ht.tail hin' h'
      exact ⟨h₁.trans h₂, .cons hk h₁' h₂'⟩

theorem first_reads (hr : Shown W base symbols r) (ht : W.Tail path ss)
    (hin : ∀ s, ss.head? = some s → W.In .plain path s)
    (h : LowersEach lower (ss.head?.map (·.id)).toList r r') :
    ShownThrough W base symbols r r' ∧ Shape.FirstPart sub path ss r r' := by
  cases ss with
  | nil =>
    cases h
    exact ⟨(Kept.refl _).through hr, .nil⟩
  | cons s ss =>
    cases h with
    | cons h hs =>
      cases hs
      obtain ⟨h₁, h₁'⟩ :=
        hl.tail (hin s rfl) ht hr h
      exact ⟨h₁, .cons h₁'⟩

/-! ### Brackets and conditions -/

omit hl in
theorem bracketed_reads {step step' : Routine → Routine → Prop} (hr : Shown W base symbols r)
    (hstep : ∀ {q q'}, Kept r q → step q q' →
      ShownThrough W base symbols q q' ∧ step' q q') (h : Bracketed step r r') :
    ShownThrough W base symbols r r' ∧ Bracketed step' r r' := by
  obtain ⟨save, r₁, enter, r₂, r₃, i, r₄, j, hs, he, hf, hm, hj⟩ := h
  have e₂ := (Kept.marker hs).trans (Kept.marker he)
  have e₂' : Kept r { r₂ with regions := ⟨r.bindings, some enter⟩ :: r₂.regions } :=
    ⟨e₂.tree, e₂.symbols, e₂.loops⟩
  have h₂ := e₂'.through hr
  obtain ⟨h₃, hf'⟩ := hstep e₂' hf
  have e₄ : Kept r₃ r₄ :=
    ⟨(Kept.marker hm).tree, (Kept.marker hm).symbols, (Kept.marker hm).loops⟩
  have e₅ : Kept r₄ r' :=
    ⟨(Kept.marker hj).tree, (Kept.marker hj).symbols, (Kept.marker hj).loops⟩
  refine ⟨⟨((e₄.trans e₅).through h₃.shown).shown, ?_⟩,
    save, r₁, enter, r₂, r₃, i, r₄, j, hs, he, hf', hm, hj⟩
  exact (h₂.extends'.trans h₃.extends').trans ((e₄.trans e₅).through h₃.shown).extends'

theorem comparesSides_reads {a b : NodeId} {path' : List Shape} {x : Shape}
    (hr : Shown W base symbols r) (hx : W.In .condition path' x) (hk : x.kind.isConnective = false)
    (he : (∃ l m, x.kind.isComparison = true ∧ x.parts.head? = some l ∧
        x.parts.getLast? = some m ∧ a = l.id ∧ b = m.id) ∨
      x.kind.isTruth = true ∧ a = x.id ∧ b < r.tree.size ∧
        ∃ format, r.tree.kind b = zeroOf format) (h : ComparesSides lower a b r r') :
    ShownThrough W base symbols r r' ∧ Shape.ComparesParts sub path' x r r' := by
  obtain ⟨u, r₁, v, r₂, w, h₁, h₂, h₃⟩ := h
  rcases he with ⟨l, m, hc, hl', hm, rfl, rfl⟩ | ⟨ht, rfl, hb, format, hz⟩
  · have hscope : x.scope? = none := by
      unfold NodeKind.isComparison at hc
      split at hc <;> simp_all [Shape.scope?]
    have operand {c} (hc : c ∈ x.parts) := hx.operand (.inr ⟨rfl, hk⟩) hscope hc
    obtain ⟨e₁, s₁⟩ := hl.value (operand (List.mem_of_mem_head? hl')) (.inl rfl) hr h₁
    obtain ⟨e₂, s₂⟩ := hl.value (operand (List.mem_of_getLast? hm)) (.inl rfl) e₁.shown h₂
    exact ⟨(e₁.trans e₂).trans ((Kept.append h₃).through e₂.shown),
      .comparison hc hl' hm s₁ s₂ h₃⟩
  · obtain ⟨e₁, s₁⟩ := hl.value hx (.inr ⟨rfl, hk⟩) hr h₁
    have h₂ := hl.literal ((e₁.extends'.kind hb).trans hz) h₂
    have hzero : (if format.isDecimal then .decimal .zero else .integer 0 : Number).isZero = true := by
      split <;> rfl
    exact ⟨e₁.trans (((Kept.create h₂).trans (Kept.append h₃)).through e₁.shown),
      .truth ht s₁ h₂ h₃ hzero⟩

theorem steps_reads {steps : List Step} (hr : Shown W base symbols r) (hq : W.In .condition path q)
    (he : ∀ a b, .compare a b ∈ steps → Explained r.tree path q a b)
    (h : Takes (steps.forM (appendStep lower)) r u r') :
    ShownThrough W base symbols r r' ∧ Shape.StepsOf sub path q steps r r' := by
  induction steps generalizing r u with
  | nil =>
    obtain ⟨-, rfl⟩ := takes_pure.mp h
    exact ⟨(Kept.refl _).through hr, .nil⟩
  | cons step steps ih =>
    obtain ⟨_, r₁, h₁, h₂⟩ := takes_bind.mp h
    cases step with
    | compare a b =>
      obtain ⟨path', x, hx, hab⟩ := he a b List.mem_cons_self
      obtain ⟨hin, hk⟩ := hq.tests hx
      obtain ⟨e₁, s₁⟩ : ShownThrough W base symbols r r₁ ∧
          Bracketed (Shape.ComparesParts sub path' x) r r₁ :=
        bracketed_reads hr (fun hq h => comparesSides_reads hl (hq.through hr).shown hin hk
          (hq.tree ▸ hab) h) (appendComparison_bracketed h₁)
      obtain ⟨e₂, s₂⟩ := ih e₁.shown
        (fun a b hab => (he a b (List.mem_cons_of_mem _ hab)).mono e₁.extends') h₂
      refine ⟨e₁.trans e₂, ?_⟩
      obtain ⟨l, hl, rfl⟩ : ∃ l, x.left? = some l ∧ a = l.id := by
        rcases hab with ⟨l, m, hc, hl, -, rfl, -⟩ | ⟨ht, rfl, -⟩
        · exact ⟨l, by simp [Shape.left?, hc, hl], rfl⟩
        · have hc : x.kind.isComparison = false := by
            simp only [NodeKind.isTruth, Bool.and_eq_true, Bool.not_eq_true'] at ht
            exact ht.2
          exact ⟨x, by simp [Shape.left?, hc], rfl⟩
      exact .compare hx hl rfl s₁ s₂
    | jump l test =>
      have e₁ := (Kept.jump h₁).through hr
      obtain ⟨e₂, s₂⟩ := ih e₁.shown
        (fun a b hab => (he a b (List.mem_cons_of_mem _ hab)).mono e₁.extends') h₂
      exact ⟨e₁.trans e₂, .jump h₁ s₂⟩
    | label l =>
      have e₁ := (Kept.label h₁).through hr
      obtain ⟨e₂, s₂⟩ := ih e₁.shown
        (fun a b hab => (he a b (List.mem_cons_of_mem _ hab)).mono e₁.extends') h₂
      exact ⟨e₁.trans e₂, .label h₁ s₂⟩

variable {f₀ : NodeId → List NodeId} {seat₀ : NodeId → NodeId} (h₀ : Standing W base t₀ f₀ seat₀)

include h₀

theorem condition_reads {f : NodeId → List NodeId} {seat : NodeId → NodeId}
    {success failure next : Label} (hst : Standing W base r.tree f seat)
    (hsym : r.symbols = symbols) (hq : W.In .condition path q)
    (h : Takes (lowerCondition lower (seat q.id) success failure (some next)) r u r') :
    ShownThrough W base symbols r r' ∧
      Shape.ConditionOf t₀ symbols sub path q success failure next r r' := by
  obtain ⟨steps, r₁, hc, h⟩ := lowerCondition_parts h
  obtain ⟨tree, labels, f', seat', rfl, hst', hext, -, hout, hexp⟩ :=
    conditioned_outlined h₀ hc hq hst rfl hsym
  have hr' : Shown W base symbols { r with tree, labels } := ⟨⟨f', seat', hst'⟩, hsym⟩
  obtain ⟨e, s⟩ := steps_reads hl hr' hq
    (fun a b hab => hexp a b (by simpa using Step.compare_mem_of_simplify hab)) h
  exact ⟨⟨e.shown, hext.trans e.extends'⟩, steps, labels, tree, hout, s⟩

/-! ### Branches -/

theorem test_reads (labels : Label → Label × Label × Label) {test : NodeId}
    (hs : W.In .plain path s) (hr : Shown W base symbols r)
    (h₁ : LowersEach lower (r.tree.conditionInitialization s.id) r r₁)
    (ht : r₁.tree.condition? s.id = some test)
    (h₂ : Takes (lowerCondition lower test (labels r₁.labels).1 (labels r₁.labels).2.1
      (some (labels r₁.labels).2.2)) { r₁ with labels := r₁.labels + 1 } u r') :
    ShownThrough W base symbols r r' ∧ Shape.TestOf t₀ symbols sub path s labels r r' := by
  obtain ⟨f, seat, hst⟩ := hr.stands
  obtain ⟨c, cs, q, hc, hq⟩ : ∃ c cs q, s.scope? = some c ∧ c.parts = cs ++ [q] := by
    by_contra hno
    -- without a condition nothing is before it, and the tree at the test is the present one
    have hnil : r.tree.conditionInitialization s.id = [] := by
      rw [Tree.conditionInitialization, hst.conditionScope hs]
      cases hc : s.scope? with
      | none => rfl
      | some c =>
        rcases List.eq_nil_or_concat c.parts with hp | ⟨cs, q, hp⟩
        · simp [hst.forest.children, hst.parts (.part hs (Shape.scope_place hc)), hp]
        · exact absurd ⟨c, cs, q, hc, by simpa using hp⟩ hno
    rw [hnil] at h₁
    cases h₁
    obtain ⟨c, cs, q, hc, hq, -⟩ := hst.condition hs ht
    exact hno ⟨c, cs, q, hc, hq⟩
  have hin : W.In .scope (s :: path) c := .part hs (Shape.scope_place hc)
  have place {x : Shape} {pl : Place} (hx : (pl, x) ∈ c.places .scope) :
      W.In pl (c :: s :: path) x := .part hin hx
  rw [Shape.places_scope hq] at place
  rw [hst.conditionInitialization hs hc hq] at h₁
  have htail : W.Tail (c :: s :: path) (cs ++ [q]) := hq ▸ hin.dropped 0
  obtain ⟨e₁, s₁⟩ := each_reads hl hr htail (fun x hx => place (by simp [hx])) h₁
  obtain ⟨f₁, seat₁, hst₁⟩ := e₁.shown.stands
  obtain ⟨c', cs', q', hc', hq', rfl⟩ := hst₁.condition hs ht
  obtain rfl : c = c' := Option.some.inj (hc.symm.trans hc')
  obtain ⟨rfl, hqq⟩ := List.append_inj' (hq.symm.trans hq') rfl
  obtain rfl : q = q' := by simpa using hqq
  obtain ⟨e₂, s₂⟩ := condition_reads hl h₀ (r := { r₁ with labels := r₁.labels + 1 }) hst₁
    e₁.shown.symbols (place (by simp)) h₂
  exact ⟨⟨e₂.shown, e₁.extends'.trans e₂.extends'⟩, c, cs, q, r₁, hc, hq, s₁, s₂⟩

omit h₀ in
theorem branchBody_reads (hs : W.In .plain path s) (hr : Shown W base symbols r)
    (h : Takes (lowerBranchBody lower s.id) r u r') :
    ShownThrough W base symbols r r' ∧ Shape.BranchBody sub path s r r' := by
  obtain ⟨body, r₁, hb, h₁, h₂⟩ := lowerBranchBody_parts h
  obtain ⟨f, seat, hst⟩ := hr.stands
  obtain ⟨b, bs, hbs, rfl, ht, hin⟩ := hst.body_some hs hb
  obtain ⟨e₁, s₁⟩ : ShownThrough W base symbols r r₁ ∧
      Bracketed (fun r r' => ∃ x?, sub (s :: path) b bs r x? r') r r₁ := by
    refine bracketed_reads hr (fun hq h => ?_) h₁
    obtain ⟨x?, h⟩ := h
    obtain ⟨e, s⟩ := hl.tail hin ht (hq.through hr).shown h
    exact ⟨e, x?, s⟩
  have hp : Prepared r.bindings r₁ r' := keepUsedLater_prepared h₂
  exact ⟨e₁.trans ((Kept.prepared hp).through e₁.shown), b, bs, r₁, hbs, s₁, hp⟩

theorem branch_reads {failure : Label} (hs : W.In .plain path s) (hr : Shown W base symbols r)
    (ht : Tested lower s.id failure r r₁) (hb : Takes (lowerBranchBody lower s.id) r₁ u r') :
    ShownThrough W base symbols r r' ∧ Shape.BranchOf t₀ symbols sub path s failure r r' := by
  obtain ⟨f, seat, hst⟩ := hr.stands
  rw [Tested, hst.kind hs] at ht
  rcases ht with ⟨hk, ht⟩ | ⟨hk, rfl⟩
  · obtain ⟨r₂, test, h₁, hc, h₂⟩ := lowerBranchTest_parts ht
    obtain ⟨e₁, s₁⟩ := test_reads hl h₀ (fun l => (l, failure, l)) hs hr h₁ hc h₂
    obtain ⟨e₂, s₂⟩ := branchBody_reads hl hs e₁.shown hb
    exact ⟨e₁.trans e₂, r₁, .inl ⟨hk, s₁⟩, s₂⟩
  · obtain ⟨e, s⟩ := branchBody_reads hl hs hr hb
    exact ⟨e, r₁, .inr ⟨hk, rfl⟩, s⟩

theorem branches_reads {stop : Label} (hne : ss ≠ []) (hin : ∀ s ∈ ss, W.In .plain path s)
    (hr : Shown W base symbols r) (h : Branched lower stop (ss.map (·.id)) r r') :
    ShownThrough W base symbols r r' ∧ Shape.BranchesOf t₀ symbols sub path stop ss r r' := by
  induction ss generalizing r with
  | nil => exact absurd rfl hne
  | cons s ss ih =>
    have hs := hin s List.mem_cons_self
    cases ss with
    | nil =>
      cases h with
      | last ht hb =>
        obtain ⟨e, s⟩ := branch_reads hl h₀ hs hr ht hb
        exact ⟨e, .last s⟩
    | cons b bs =>
      cases h with
      | @cons _ _ _ _ r₁ r₂ r₃ r₄ _ hm hn ht hb hj hx hrest =>
        have hr₀ : Shown W base symbols { r with labels := r.labels + 1 } := ⟨hr.stands, hr.symbols⟩
        obtain ⟨e₁, s₁⟩ := branch_reads hl h₀ hs hr₀ ht hb
        have e₂ := ((Kept.jump hj).trans (Kept.label hx)).through e₁.shown
        obtain ⟨e₃, s₃⟩ :=
          ih (by simp) (fun s hs => hin s (List.mem_cons_of_mem _ hs)) e₂.shown hrest
        exact ⟨⟨e₃.shown, (e₁.extends'.trans e₂.extends').trans e₃.extends'⟩,
          .cons s₁ hj hx s₃⟩

theorem chain_reads (htidy : W.Tidy) (hs : W.In .plain path s) {c : ContextId}
    (hk : s.kind = .ifBranch c) (ht : W.Tail path (s :: ss)) (hr : Shown W base symbols r)
    (h : Takes (lowerChain lower s.id) r u r') :
    ShownThrough W base symbols r r' ∧
      Shape.LowersPart t₀ symbols sub path s ss r none r' := by
  obtain ⟨r₁, i, r₂, r₃, h₁, h₂, h₃, h₄⟩ := lowerChain_parts h
  obtain ⟨f, seat, hst⟩ := hr.stands
  rw [hst.branches htidy ht (hst.seat_of_ne hs (by simp))] at h₂ h₃
  have hin : ∀ b ∈ s :: Shape.followers s.kind ss, W.In .plain path b := by
    simp only [List.mem_cons, forall_eq_or_imp]
    exact ⟨hs, fun b hb => ht.follower htidy hb⟩
  have e₂ := ((Kept.prepared (h₁ [])).trans (Kept.marker h₂)).through hr
  have hr₂ : Shown W base symbols { r₂ with labels := r₂.labels + 1 } :=
    ⟨e₂.shown.stands, e₂.shown.symbols⟩
  obtain ⟨e₃, s₃⟩ := branches_reads hl h₀ (by simp) hin hr₂ h₃
  have e₄ := (Kept.label h₄).through e₃.shown
  exact ⟨⟨e₄.shown, (e₂.extends'.trans e₃.extends').trans e₄.extends'⟩,
    .chain hk h₁ h₂ s₃ h₄⟩

/-! ### Loops -/

omit h₀ in
theorem loopBody_reads (hs : W.In .plain path s) (hr : Shown W base symbols r) {body : NodeId}
    (hb : r.tree.body? s.id = some body) (h : Takes (lower body) r x? r') :
    ShownThrough W base symbols r r' ∧ ∃ b bs, s.bodyOn = b :: bs ∧
      sub (s :: path) b bs r x? r' := by
  obtain ⟨f, seat, hst⟩ := hr.stands
  obtain ⟨b, bs, hbs, rfl, ht, hin⟩ := hst.body_some hs hb
  obtain ⟨e, s⟩ := hl.tail hin ht hr h
  exact ⟨e, b, bs, hbs, s⟩

theorem round_reads {start stop : Label} (hs : W.In .plain path s) {c : ContextId}
    (hk : s.kind = .loop c false) (hr : Shown W base symbols r)
    (h : LoopRound lower s.id start stop actives r r') :
    ShownThrough W base symbols r r' ∧
      Shape.RoundOf t₀ symbols sub path s start stop actives r r' := by
  obtain ⟨q₁, symmetry, q₂, body, x?, q₃, q₄, q₅, q₆, test, q₇, h₁, h₂, hb, h₃, h₄, h₅, h₆, ht, h₇,
    h₈⟩ := h
  have e₁ := (Kept.label h₁).through hr
  have e₂ := e₁.trans (opened_through h₂ e₁.shown)
  obtain ⟨e₃, b, bs, hbs, s₃⟩ := loopBody_reads hl hs e₂.shown hb h₃
  obtain ⟨f, seat, hst⟩ := e₃.shown.stands
  rw [hst.loopAction hs hk] at h₄
  obtain ⟨e₄, s₄⟩ := first_reads hl e₃.shown (hs.dropped 2) (fun _ => hs.action hk) h₄
  have e₅ := (Kept.closeSymmetry h₅).through e₄.shown
  obtain ⟨e₇, s₇⟩ := test_reads hl h₀ (fun exit => (start, exit, exit)) hs e₅.shown h₆ ht h₇
  have hp : Prepared actives q₇ r' := keepAlive_prepared (fun _ => id) h₈
  have e₈ := (Kept.prepared hp).through e₇.shown
  exact ⟨e₂.trans (e₃.trans (e₄.trans (e₅.trans (e₇.trans e₈)))), q₁, symmetry, q₂, b, bs, x?, q₃,
    q₄, q₅, q₇, h₁, h₂, hbs, s₃, s₄, h₅, s₇, h₈⟩

theorem pretested_reads (hs : W.In .plain path s) {c : ContextId} (hk : s.kind = .loop c false)
    (hr : Shown W base symbols r) (h : Takes (lowerPretested lower s.id) r u r') :
    ShownThrough W base symbols r r' ∧ Shape.PretestedOf t₀ symbols sub path s r r' := by
  obtain ⟨r₁, save, r₂, r₃, r₄, j, ⟨q₁, q₂, q₃, test, g₁, g₂, g₃, gt, g₄⟩, h₂, h₃, h₄, h₅⟩ :=
    lowerPretested_parts h
  obtain ⟨f, seat, hst⟩ := hr.stands
  have hr₀ : Shown W base symbols { r with labels := r.labels + 2 } := ⟨hr.stands, hr.symbols⟩
  have hi : r.tree.loopInitialization? s.id = s.parts.head?.map (·.id) :=
    hst.loopInitialization hs hk
  simp only [hi] at g₁
  obtain ⟨e₁, s₁⟩ := first_reads hl hr₀ (hs.dropped 0) (fun _ => hs.initialization hk) g₁
  have e₂ := (Kept.prepared (g₂ [])).through e₁.shown
  obtain ⟨e₃, s₃⟩ :=
    test_reads hl h₀ (fun enter => (enter, r.labels + 1, enter)) hs e₂.shown g₃ gt g₄
  have e₄ := (Kept.marker h₂).through e₃.shown
  have hr₅ : Shown W base symbols { r₂ with regions := ⟨r₂.bindings, none⟩ :: r₂.regions } :=
    ⟨e₄.shown.stands, e₄.shown.symbols⟩
  obtain ⟨e₅, s₅⟩ := round_reads hl h₀ hs hk hr₅ h₃
  have e₆ : Kept r₃ r₄ :=
    ⟨(Kept.label h₄).tree, (Kept.label h₄).symbols, (Kept.label h₄).loops⟩
  have e₇ := (e₆.trans (Kept.marker h₅)).through e₅.shown
  refine ⟨⟨e₇.shown, ?_⟩, q₁, q₂, r₁, save, r₂, r₃, r₄, j, s₁, g₂, s₃, h₂, s₅, h₄, h₅⟩
  exact ((((e₁.extends'.trans e₂.extends').trans e₃.extends').trans e₄.extends').trans
    e₅.extends').trans e₇.extends'

omit h₀ in
theorem forever_reads (hs : W.In .plain path s) (hr : Shown W base symbols r)
    (h : Takes (lowerForever lower s.id) r u r') :
    ShownThrough W base symbols r r' ∧ Shape.ForeverOf sub path s r r' := by
  obtain ⟨r₁, save, r₂, r₃, r₄, r₅, r₆, j, h₁, h₂, h₃, ⟨q₁, symmetry, q₂, body, x?, q₃, g₁, g₂, hb,
    g₃, g₄⟩, h₅, h₆, h₇⟩ := lowerForever_parts h
  have e₂ := ((Kept.prepared (h₁ [])).trans (Kept.marker h₂)).through hr
  have hr₂ : Shown W base symbols { r₂ with labels := r₂.labels + 2 } :=
    ⟨e₂.shown.stands, e₂.shown.symbols⟩
  have e₃ := (Kept.label h₃).through hr₂
  have hr₃ : Shown W base symbols
      { r₃ with labels := r₃.labels + 1, regions := ⟨r₃.bindings, none⟩ :: r₃.regions } :=
    ⟨e₃.shown.stands, e₃.shown.symbols⟩
  have e₁ := (Kept.label g₁).through hr₃
  have e₄ := e₁.trans (opened_through g₂ e₁.shown)
  obtain ⟨e₅, b, bs, hbs, s₅⟩ := loopBody_reads hl hs e₄.shown hb g₃
  have e₆ := (Kept.closeSymmetry g₄).through e₅.shown
  have e₇ : Kept r₄ r₅ :=
    ⟨(Kept.jump h₅).tree, (Kept.jump h₅).symbols, (Kept.jump h₅).loops⟩
  have e₈ := ((e₇.trans (Kept.marker h₆)).trans (Kept.label h₇)).through e₆.shown
  refine ⟨⟨e₈.shown, ?_⟩, r₁, save, r₂, r₃, r₄, r₅, r₆, j, h₁, h₂, h₃,
    ⟨q₁, symmetry, q₂, b, bs, x?, q₃, g₁, g₂, hbs, s₅, g₄⟩, h₅, h₆, h₇⟩
  exact ((((e₂.extends'.trans e₃.extends').trans e₄.extends').trans e₅.extends').trans
    e₆.extends').trans e₈.extends'

omit hl h₀ in
theorem control_reads {control : LoopControl} (hs : W.In .plain path s)
    (hr : Shown W base symbols r) (h : Takes (lowerControl s.id control) r u r') :
    ShownThrough W base symbols r r' ∧ Shape.ControlOf path control r r' := by
  obtain ⟨loop, record, save, r₁, i, r₂, r₃, j, hl, hrec, h₁, h₂, h₃, h₄⟩ := lowerControl_parts h
  obtain ⟨f, seat, hst⟩ := hr.stands
  obtain ⟨p, hp, rfl⟩ := hst.enclosingLoop hs hl
  have e := ((Kept.marker h₁).trans (Kept.marker h₂)).trans
    ((Kept.jump h₃).trans (Kept.marker h₄))
  exact ⟨e.through hr, p, record, save, r₁, i, r₂, r₃, j, hp, hrec, h₁, h₂, h₃, h₄⟩

/-! ### Nodes -/

omit hl h₀ in
/-- The first operand of a node. -/
theorem operand_read {f : NodeId → List NodeId} {seat : NodeId → NodeId} {left : NodeId}
    (hst : Standing W base r.tree f seat) (hs : W.In pl path s) (hv : s.Valued pl)
    (hk : s.scope? = none) (h1 : r.tree.first? s.id = some left) :
    ∃ l, s.parts.head? = some l ∧ left = l.id ∧ W.In .plain (s :: path) l := by
  rw [hst.forest.first, hst.parts_eq hs hv, List.head?_map, Option.map_eq_some_iff] at h1
  obtain ⟨l, hl, rfl⟩ := h1
  exact ⟨l, hl, rfl, hs.operand hv hk (List.mem_of_mem_head? hl)⟩

omit hl h₀ in
/-- The two operands of a node. -/
theorem operands_read {f : NodeId → List NodeId} {seat : NodeId → NodeId} {left right : NodeId}
    (hst : Standing W base r.tree f seat) (hs : W.In pl path s) (hv : s.Valued pl)
    (hk : s.scope? = none) (h1 : r.tree.first? s.id = some left)
    (h2 : r.tree.last? s.id = some right) :
    ∃ l m, s.parts.head? = some l ∧ s.parts.getLast? = some m ∧ left = l.id ∧ right = m.id ∧
      W.In .plain (s :: path) l ∧ W.In .plain (s :: path) m := by
  obtain ⟨l, hl, hle, hlin⟩ := operand_read hst hs hv hk h1
  rw [hst.forest.last, hst.parts_eq hs hv, List.getLast?_map, Option.map_eq_some_iff] at h2
  obtain ⟨m, hm, rfl⟩ := h2
  exact ⟨l, m, hl, hm, hle, rfl, hlin, hs.operand hv hk (List.mem_of_getLast? hm)⟩

theorem lowerNode_reads (htidy : W.Tidy) :
    Reads W base symbols (lowerNode lower) (Shape.LowersPart t₀ symbols sub) := by
  refine ⟨?_, ?_⟩
  · intro pl path s r x? r' hs hv hx hr h
    obtain ⟨f, seat, hst⟩ := hr.stands
    have hkind := hst.kind hs
    have hp : ∀ p ∈ path, s.id ≠ p.id := fun p hp => hst.not_mem_path hs hp
    cases lowerNode_cases h with
    | statements hk h =>
      rw [hkind] at hk
      have hscope : s.scope? = none := by rcases hk with ⟨c, hk⟩ | hk <;> simp [Shape.scope?, hk]
      rw [hst.forest.children, hst.parts_eq hs hv] at h
      obtain ⟨e, h⟩ := stated_reads hl hr (.inr (hs.dropped 0))
        (fun c hc => hs.operand hv hscope hc) h
      refine ⟨e, ?_, fun ss _ => .statements hk h⟩
      rcases hk with ⟨c, hk⟩ | hk <;> simp [hk]
    | number hk h =>
      rw [hkind] at hk
      exact ⟨(Kept.create h).through hr, by simp [hk], fun ss _ => .number hk h⟩
    | reference hk h =>
      rw [hkind] at hk
      exact ⟨(Kept.valueOf h).through hr, by simp [hk], fun ss _ => .reference hk h⟩
    | arithmetic hk ho h =>
      rw [hkind] at hk
      obtain ⟨left, right, x, y, r₁, r₂, h1, h2, g₁, g₂, g₃⟩ := lowerArithmetic_parts h
      obtain ⟨l, m, hlp, hmp, rfl, rfl, hlin, hmin⟩ :=
        operands_read hst hs hv (by simp [Shape.scope?, hk]) h1 h2
      obtain ⟨e₁, s₁⟩ := hl.value hlin (.inl rfl) hr g₁
      obtain ⟨e₂, s₂⟩ := hl.value hmin (.inl rfl) e₁.shown g₂
      have e₃ := (Kept.operated g₃).through e₂.shown
      exact ⟨(e₁.trans e₂).trans e₃, by simp [hk],
        fun ss _ => .arithmetic hk ho hlp hmp s₁ s₂ g₃⟩
    | assignment hk ho h =>
      rw [hkind] at hk
      obtain ⟨left, right, h1, h2, h⟩ := lowerAssignment_parts h
      obtain ⟨l, m, hlp, hmp, rfl, rfl, hlin, hmin⟩ :=
        operands_read hst hs hv (by simp [Shape.scope?, hk]) h1 h2
      rw [hst.kind hlin] at h
      rcases h with ⟨v, x, r₁, r₂, hv, g₁, g₂, g₃⟩ | ⟨x, r₁, r₂, k, w, hv, g₁, g₂, g₃⟩
      · obtain ⟨e₁, s₁⟩ := hl.value hmin (.inl rfl) hr g₁
        have e₂ := ((Kept.copied g₂).trans (Kept.bind g₃)).through e₁.shown
        exact ⟨e₁.trans e₂, by simp [hk], fun ss _ => .binding hk ho hlp hv hmp s₁ g₂ g₃⟩
      · obtain ⟨e₁, s₁⟩ := hl.value hlin (.inl rfl) hr g₁
        obtain ⟨e₂, s₂⟩ := hl.value hmin (.inl rfl) e₁.shown g₂
        have e₃ := (Kept.append g₃).through e₂.shown
        exact ⟨(e₁.trans e₂).trans e₃, by simp [hk],
          fun ss _ => .store hk ho hlp hv hmp s₁ s₂ g₃⟩
    | link hk h =>
      rw [hkind] at hk
      obtain ⟨object, name, v, x, r₁, offset, k, h1, h2, hname, ho, g₁, g₂⟩ := lowerLink_parts h
      obtain ⟨l, m, hlp, hmp, rfl, rfl, hlin, hmin⟩ :=
        operands_read hst hs hv (by simp [Shape.scope?, hk]) h1 h2
      rw [hst.kind hmin] at hname
      rw [hr.symbols] at ho
      obtain ⟨e₁, s₁⟩ := hl.value hlin (.inl rfl) hr g₁
      have e₂ := (Kept.append g₂).through e₁.shown
      exact ⟨e₁.trans e₂, by simp [hk], fun ss _ => .link hk hlp s₁ g₂ hmp hname ho⟩
    | offset hk h =>
      rw [hkind] at hk
      obtain ⟨object, index, x, y, r₁, r₂, k, h1, h2, g₁, g₂, g₃⟩ := lowerOffset_parts h
      obtain ⟨l, m, hlp, hmp, rfl, rfl, hlin, hmin⟩ :=
        operands_read hst hs hv (by simp [Shape.scope?, hk]) h1 h2
      obtain ⟨e₁, s₁⟩ := hl.value hlin (.inl rfl) hr g₁
      obtain ⟨e₂, s₂⟩ := hl.value hmin (.inl rfl) e₁.shown g₂
      have e₃ := (Kept.append g₃).through e₂.shown
      exact ⟨(e₁.trans e₂).trans e₃, by simp [hk],
        fun ss _ => .offset hk hlp hmp s₁ s₂ g₃⟩
    | call hk h =>
      rw [hkind] at hk
      obtain ⟨xs, r₁, w, r₂, symbol, k, h₁, h₂, hsym, h₃⟩ := lowerCall_parts h
      rw [hst.forest.children, hst.parts_eq hs hv] at h₁
      obtain ⟨e₁, s₁⟩ := all_reads hl hr
        (fun c hc => hs.operand hv (by simp [Shape.scope?, hk]) hc) h₁
      have e₂ := (Kept.append h₂).through e₁.shown
      have e₃ := (Kept.append h₃).through e₂.shown
      rw [e₂.shown.symbols] at hsym
      exact ⟨(e₁.trans e₂).trans e₃, by simp [hk], fun ss _ => .call hk s₁ h₂ hsym h₃⟩
    | chain hk h =>
      rw [hkind] at hk
      obtain rfl := hx rfl
      obtain ⟨ss, ht⟩ := hs.tail
      exact ⟨(chain_reads hl h₀ htidy hs hk ht hr h).1, fun _ => rfl,
        fun ss ht => (chain_reads hl h₀ htidy hs hk (ht ⟨_, hk⟩) hr h).2⟩
    | forever hk h =>
      rw [hkind] at hk
      obtain rfl := hx rfl
      obtain ⟨e, h⟩ := forever_reads hl hs hr h
      exact ⟨e, by simp, fun ss _ => .forever hk hp h⟩
    | pretested hk h =>
      rw [hkind] at hk
      obtain rfl := hx rfl
      obtain ⟨e, h⟩ := pretested_reads hl h₀ hs hk hr h
      exact ⟨e, by simp, fun ss _ => .pretested hk hp h⟩
    | control hk h =>
      rw [hkind] at hk
      obtain rfl := hx rfl
      obtain ⟨e, h⟩ := control_reads hs hr h
      exact ⟨e, by simp, fun ss _ => .control hk h⟩
    | ret hk h =>
      rw [hkind] at hk
      rcases lowerReturn_parts h with ⟨h1, w, g⟩ | ⟨child, x, y, r₁, r₂, w, h1, g₁, g₂, g₃⟩
      · rw [hst.forest.first, hst.parts_eq hs hv, List.head?_map, Option.map_eq_none_iff,
          List.head?_eq_none_iff] at h1
        exact ⟨(Kept.append g).through hr, by simp, fun ss _ => .ret hk h1 g⟩
      · obtain ⟨l, hlp, rfl, hlin⟩ := operand_read hst hs hv (by simp [Shape.scope?, hk]) h1
        obtain ⟨e₁, s₁⟩ := hl.value hlin (.inl rfl) hr g₁
        have e₂ := ((Kept.copied g₂).trans (Kept.append g₃)).through e₁.shown
        exact ⟨e₁.trans e₂, by simp, fun ss _ => .retValue hk hlp s₁ g₂ g₃⟩
    | stackAddress hk h =>
      rw [hkind] at hk
      have e : Kept r r' :=
    ⟨(Kept.append h).tree, (Kept.append h).symbols, (Kept.append h).loops⟩
      exact ⟨e.through hr, by simp [hk], fun ss _ => .stackAddress hk h⟩
  · intro n v f r x r' hn h
    cases lowerNode_cases h with
    | number hk h =>
      rw [hn] at hk
      cases hk
      exact h
    | _ => simp_all

omit hl in
theorem lowerWithin_reads (htidy : W.Tidy) (fuel : Nat) :
    Reads W base symbols (lowerWithin fuel) (Shape.LowersWithin t₀ symbols fuel) := by
  induction fuel with
  | zero =>
    exact ⟨fun _ _ _ _ h => absurd h not_takes_throw, fun _ h => absurd h not_takes_throw⟩
  | succ fuel ih => exact lowerNode_reads ih h₀ htidy

end Generating

/-- **The lowering of a tree is the lowering of the shape that it shows.** -/
theorem Tree.Shows.lowers {W : Shape} {r r' : Routine} {x? : Option ValueId} (hW : r.tree.Shows W)
    (htidy : W.Tidy) (h : Generating.Takes (Generating.lower W.id) r x? r') :
    ∃ fuel, Shape.LowersWithin r.tree r.symbols fuel [] W [] r x? r' := by
  simp only [Generating.lower, Generating.takes_bind, Generating.takes_get] at h
  obtain ⟨_, _, ⟨rfl, rfl⟩, h⟩ := h
  obtain ⟨f, seat, h₀⟩ := Standing.of_shows hW
  obtain ⟨-, -, h⟩ := (Generating.lowerWithin_reads h₀ htidy _).part .root (.inl rfl)
    (fun _ => rfl) ⟨⟨f, seat, h₀⟩, rfl⟩ h
  exact ⟨_, h [] fun _ => .root⟩

end Codegen
