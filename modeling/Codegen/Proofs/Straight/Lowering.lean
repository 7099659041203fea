import Codegen.Lowering.Body
import Codegen.Proofs.Straight.Draft
import Codegen.Proofs.Straight.Source

/-!
# Lowering of straight-line bodies

The lowering of a straight-line body succeeds, unless there are more parameters than registers for
them. Each expression becomes a value that stands for its word, and each variable is bound to a
value that stands for what was assigned last.

* `Bound`: **variables are bound to values that stand for their words**;
* `appendArithmetic_spec`: an operation on two values;
* `Expression.lower_spec`: **an expression becomes a value that stands for its word**;
* `Body.lower_spec`: so does the value that a body returns.
-/

namespace Codegen.Straight

open Generating Shape

variable {n k : Nat} {W W' : ValueId → Word} {r r' : Routine} {σ : VariableId → Word}
variable {known : VariableId → Prop} {u v x : ValueId} {a b w : Word} {o : Operator}
variable {g : Word → Word → Word} {e : Shape} {i : NodeId} {t : Tree} {f : NodeId → List NodeId}
variable {symbols : SymbolTable}

/-! ## Variables -/

/-- **The known variables are bound to values that stand for their words.** -/
def Bound (n : Nat) (W : ValueId → Word) (r : Routine) (σ : VariableId → Word)
    (known : VariableId → Prop) : Prop :=
  ∀ v, known v → ∃ x, r.bindings.lookup v = some x ∧ Stands n W r x (σ v)

theorem Bound.grown (h : Bound n W r σ known) (hg : Grown k W r W' r')
    (hb : r'.bindings = r.bindings) : Bound n W' r' σ known := fun v hv => by
  obtain ⟨x, hx, hs⟩ := h v hv
  exact ⟨x, by rw [hb, hx], hs.grown hg⟩

theorem lookup_put (v : VariableId) (x : ValueId) (bs : List Binding) (u : VariableId) :
    (Binding.put v x bs).lookup u = if u = v then some x else bs.lookup u := by
  induction bs with
  | nil => grind [Binding.put]
  | cons b bs ih =>
    obtain ⟨y, z⟩ := b
    grind [Binding.put]

theorem Bound.put (h : Bound n W r σ known) (hg : Grown k W r W' r') {v : VariableId}
    (hb : r'.bindings = Binding.put v x r.bindings) (hx : Stands n W' r' x w) :
    Bound n W' r' (Function.update σ v w) fun u => u = v ∨ known u := by
  intro u hu
  rw [hb, lookup_put]
  by_cases huv : u = v
  · subst huv
    exact ⟨x, if_pos rfl, by rwa [Function.update_self]⟩
  · obtain ⟨y, hy, hs⟩ := h u (hu.resolve_left huv)
    rw [Function.update_of_ne huv]
    exact ⟨y, by rw [if_neg huv, hy], hs.grown hg⟩

/-! ## Arithmetic -/

theorem Draft.constantOf?_eq (h : Draft n W r) (hx : Stands n W r x w) :
    constantOf? x r =
      .ok (if (planOf W r.values).isConstant x then some (.integer w) else none) r := by
  obtain ⟨c, hc, hdraft⟩ := h.exists_cell hx.lt_size
  unfold constantOf?
  rw [bind_of_ok (handleOf_eq hc), planOf_isConstant hc]
  rcases hdraft.place with hh | ⟨hh, -⟩ <;> rw [hh]
  · rw [hx.word]
    rfl
  · rfl

theorem Gives.relax {l : Nat} (h : Gives n W r k w x r') (hkl : k ≤ l) : Gives n W r l w x r' := by
  obtain ⟨W', hd, hg, hs, hb⟩ := h
  exact ⟨W', hd, hg.relax hkl, hs, hb⟩

theorem Draft.gives (h : Draft n W r) (hx : Stands n W r x w) (k : Nat) :
    Gives n W r k w x r := ⟨W, h, (Grown.refl W r).relax (Nat.zero_le k), hx, rfl⟩

theorem word_of_isNeutral {c : Prop} [Decidable c] (ho : o.onWords? = some g)
    (h : isNeutral o (if c then some (.integer b) else none) = true) : g a b = a := by
  split at h <;> cases o <;> cases ho <;> simp_all [isNeutral]

theorem word_of_isAnnihilating {c : Prop} [Decidable c] (ho : o.onWords? = some g)
    (h : isAnnihilating o (if c then some (.integer b) else none) = true) : g a b = 0 := by
  split at h <;> cases o <;> cases ho <;> simp_all [isAnnihilating]

section Arithmetic

variable (h : Draft n W r) (hu : Stands n W r u a) (hv : Stands n W r v b)
include h hu hv

theorem arithmetic_spec (ho : o.onWords? = some g)
    (hk : o = .multiply → (planOf W r.values).isConstant u = false) :
    ∃ kind, arithmetic? u v o = some kind ∧ Runs (append kind .i64) r (Gives n W r 1 (g a b)) := by
  have run {kind : InstructionKind} (hd : IsDirect kind)
      (hps : kind.parameters.map (·.value) = [u, v])
      (hc : ∀ {K : Plan} {p : Nat} {x : ValueId}, (planOf W r.values).Extends K →
        Usable K (K.Needed p) u → Usable K (K.Needed p) v →
        K.word x = g (K.word u) (K.word v) → Computes K p x kind) :
      Runs (append kind .i64) r (Gives n W r 1 (g a b)) := by
    refine h.append hd hps ?_ _ fun K he hus hx => hc he (hus u (by simp)) (hus v (by simp)) ?_
    · simpa using ⟨⟨hu.lt_size, hu.ne_marker⟩, hv.lt_size, hv.ne_marker⟩
    · rw [hx, he.word u hu.lt_size, he.word v hv.lt_size]
      exact congrArg₂ g hu.word.symm hv.word.symm
  cases o with
  | add =>
    cases ho
    exact ⟨_, rfl, run ⟨rfl, rfl, fun _ _ => rfl⟩ rfl fun _ => .addition⟩
  | subtract =>
    cases ho
    exact ⟨_, rfl, run ⟨rfl, rfl, fun _ _ => rfl⟩ rfl fun _ => .subtraction⟩
  | multiply =>
    cases ho
    exact ⟨_, rfl, run ⟨rfl, rfl, fun _ _ => rfl⟩ rfl fun he hus =>
      .multiplication hus ((he.isConstant u hu.lt_size).trans (hk rfl))⟩
  | _ => cases ho

/-- **An operation on two values**, of which the first of a product is no literal. -/
theorem appendArithmetic_spec (ho : o.onWords? = some g)
    (hk : o = .multiply → (planOf W r.values).isConstant u = false) :
    Runs (appendArithmetic o .i64 u v) r (Gives n W r 1 (g a b)) := by
  obtain ⟨kind, hkind, hrun⟩ := arithmetic_spec h hu hv ho hk
  unfold appendArithmetic
  refine .step (h.constantOf?_eq hv) ?_
  simp only [Format.isDecimal, Bool.not_false, Bool.true_and]
  by_cases hneutral : isNeutral o
      (if (planOf W r.values).isConstant v = true then some (.integer b) else none) = true
  · rw [if_pos hneutral, word_of_isNeutral ho hneutral]
    exact .pure (h.gives hu 1)
  · rw [if_neg hneutral]
    by_cases hzero : isAnnihilating o
        (if (planOf W r.values).isConstant v = true then some (.integer b) else none) = true
    · rw [if_pos hzero, word_of_isAnnihilating ho hzero]
      exact (h.literal 0).mono fun _ _ hx => hx.relax (Nat.zero_le 1)
    · rw [if_neg hzero, hkind]
      exact hrun

end Arithmetic

/-! ## Expressions -/

/-- The step gave a value, for the word. -/
def GivesSome (n : Nat) (W : ValueId → Word) (r : Routine) (k : Nat) (w : Word)
    (y : Option ValueId) (r' : Routine) : Prop := ∃ x, y = some x ∧ Gives n W r k w x r'

theorem GivesSome.relax {l : Nat} {y : Option ValueId} (h : GivesSome n W r k w y r')
    (hkl : k ≤ l) : GivesSome n W r l w y r' := by
  obtain ⟨x, hy, hx⟩ := h
  exact ⟨x, hy, hx.relax hkl⟩

theorem Gives.after {l : Nat} {r'' : Routine} (h : Gives n W' r' l w x r'') (hg : Grown k W r W' r')
    (hb : r'.bindings = r.bindings) : Gives n W r (k + l) w x r'' := by
  obtain ⟨W'', hd, hg', hs, hb'⟩ := h
  exact ⟨W'', hd, hg.trans hg', hs, hb'.trans hb⟩

theorem valueOfNode_spec {lower : Lowering} (h : Runs (lower i) r (GivesSome n W r k w)) :
    Runs (valueOfNode lower i) r (Gives n W r k w) := by
  unfold valueOfNode
  refine .bind h ?_
  rintro _ r' ⟨x, rfl, hx⟩
  exact .pure hx

theorem operandsOf_eq {l q : NodeId} (ht : r.tree = t) (hf : t.Forest f) (hc : f i = [l, q]) :
    operandsOf i r = .ok (l, q) r := by
  have hne : l ≠ q := by
    have hd := hf.distinct i
    rw [hc] at hd
    simpa using hd
  have hfirst : r.tree.first? i = some l := by
    rw [ht, hf.first, hc]
    rfl
  have hlast : r.tree.last? i = some q := by
    rw [ht, hf.last, hc]
    rfl
  unfold operandsOf
  rw [bind_of_ok (g := get) (a := r) rfl, hfirst, hlast]
  simp only [ne_eq, hne, not_false_eq_true, if_true]
  rfl

/-- An operation on two expressions. -/
theorem lowerArithmetic_spec {lower : Lowering} {l q : NodeId} {j : Nat}
    (hc : operandsOf i r = .ok (l, q) r) (hformat : r.tree.formatOf r.symbols i = .ok .i64)
    (ho : o.onWords? = some g) (hl : Runs (lower l) r (GivesSome n W r j a))
    (hq : ∀ W' r', Draft n W' r' → Grown j W r W' r' → r'.bindings = r.bindings →
      Runs (lower q) r' (GivesSome n W' r' k b)) :
    Runs (lowerArithmetic lower i o) r (Gives n W r (j + k + 1) (g a b)) := by
  unfold lowerArithmetic
  refine .step hc (.step (ask_eq hformat) (.bind (valueOfNode_spec hl) ?_))
  rintro u r₁ ⟨W₁, h₁, hg₁, hu, hb₁⟩
  refine .bind (valueOfNode_spec (hq W₁ r₁ h₁ hg₁ hb₁)) ?_
  rintro v r₂ ⟨W₂, h₂, hg₂, hv, hb₂⟩
  have hu := hu.grown hg₂
  -- what the operation does behind its operands
  refine Runs.mono (Q := Gives n W₂ r₂ 1 (g a b)) ?_ fun x r' hx =>
    hx.after (hg₁.trans hg₂) (hb₂.trans hb₁)
  refine .step (h₂.constantOf?_eq hu) (.step (h₂.constantOf?_eq hv) ?_)
  have plain (hku : (planOf W₂ r₂.values).isConstant u = false) :
      Runs (appendArithmetic o .i64 u v) r₂ (Gives n W₂ r₂ 1 (g a b)) :=
    appendArithmetic_spec h₂ hu hv ho fun _ => hku
  cases hku : (planOf W₂ r₂.values).isConstant u with
  | false => exact plain hku
  | true =>
    cases hkv : (planOf W₂ r₂.values).isConstant v with
    | true =>
      have hfold : (Number.integer a).fold? o (.integer b) = some (.integer (g a b)) := by
        rw [Number.fold?, ho]
        rfl
      simp only [if_true, hfold]
      exact (h₂.literal _).mono fun _ _ hx => hx.relax (Nat.zero_le 1)
    | false =>
      simp only [if_true, Bool.false_eq_true, if_false]
      split
      next hcomm =>
        have hword : g a b = g b a := by
          rcases hcomm with rfl | rfl <;> cases ho
          · exact Int64.add_comm a b
          · exact Int64.mul_comm a b
        rw [hword]
        exact appendArithmetic_spec h₂ hv hu ho fun _ => hkv
      next hcomm => exact appendArithmetic_spec h₂ hu hv ho fun hm => absurd (.inr hm) hcomm

theorem Expression.not_alternative (he : Expression known e) : e.kind.isAlternative = false := by
  cases he <;> rfl

theorem runs_some {g : Generating ValueId} (h : Runs g r (Gives n W r k w)) :
    Runs (some <$> g) r (GivesSome n W r k w) :=
  .map (h.mono fun x _ hx => ⟨x, rfl, hx⟩)

/-- The only statement of a list. -/
theorem lowerStatements_single {lower : Lowering} {q : NodeId} {last? : Option ValueId}
    {Q : Option ValueId → Routine → Prop} (hk : (r.tree.kind q).isAlternative = false)
    (h : Runs (lower q) r Q) : Runs (lowerStatements lower last? [q]) r Q := by
  unfold lowerStatements
  refine .step (g := get) (a := r) rfl ?_
  simp only [hk, Bool.false_eq_true, if_false]
  exact .bind h fun _ _ hq => .pure hq

section Nodes

variable {lower : Lowering}

theorem lowerNode_number {w : Word} (hk : r.tree.kind i = .number (.integer w) .i64)
    (h : Draft n W r) :
    Runs (lowerNode lower i) r (GivesSome n W r 0 w) := by
  unfold lowerNode
  refine .step (g := get) (a := r) rfl ?_
  rw [hk]
  exact runs_some (h.literal w)

theorem lowerNode_reference {v : VariableId} (hk : r.tree.kind i = .reference v) (h : Draft n W r)
    (hb : Bound n W r σ known) (hv : known v) :
    Runs (lowerNode lower i) r (GivesSome n W r 0 (σ v)) := by
  obtain ⟨x, hx, hs⟩ := hb v hv
  unfold lowerNode
  refine .step (g := get) (a := r) rfl ?_
  rw [hk]
  refine runs_some ?_
  unfold valueOf bound?
  refine .step (a := some x) ?_ (.pure (h.gives hs 0))
  rw [bind_of_ok (g := get) (a := r) rfl, hx]
  rfl

theorem lowerNode_parenthesis {Q : Option ValueId → Routine → Prop}
    (hk : r.tree.kind i = .parenthesis) (h : Runs (lowerStatements lower none (r.tree.children i)) r Q) :
    Runs (lowerNode lower i) r Q := by
  unfold lowerNode
  refine .step (g := get) (a := r) rfl ?_
  rw [hk]
  exact .step (g := get) (a := r) rfl h

theorem lowerNode_operator (hk : r.tree.kind i = .operator o) (ho : o.category = .classic)
    (h : Runs (lowerArithmetic lower i o) r (Gives n W r k w)) :
    Runs (lowerNode lower i) r (GivesSome n W r k w) := by
  unfold lowerNode
  refine .step (g := get) (a := r) rfl ?_
  rw [hk]
  simp only [ho]
  exact runs_some h

end Nodes

/-- **An expression becomes a value that stands for its word.** At most one instruction is appended
for each of its nodes. -/
theorem Expression.lower_spec (he : Expression known e) (hf : t.Forest f) (hd : t.Displays f [e])
    (hknown : ∀ v, known v → HoldsWord symbols v) (hw : HasWords symbols) {fuel : Nat}
    (hfuel : (ids [e]).length ≤ fuel) (ht : r.tree = t) (hs : r.symbols = symbols)
    (h : Draft n W r) (hb : Bound n W r σ known) :
    Runs (lowerWithin fuel e.id) r (GivesSome n W r (ids [e]).length (e.word σ)) := by
  induction he generalizing fuel r W with
  | number i w =>
    obtain ⟨⟨hk, -⟩, -⟩ := Tree.Displays.cons.mp hd
    obtain ⟨fuel, rfl⟩ : ∃ k, fuel = k + 1 := ⟨fuel - 1, by simp at hfuel; omega⟩
    exact (lowerNode_number (by rw [ht]; exact hk) h).mono fun _ _ hx => hx.relax (Nat.zero_le _)
  | reference i hv =>
    obtain ⟨⟨hk, -⟩, -⟩ := Tree.Displays.cons.mp hd
    obtain ⟨fuel, rfl⟩ : ∃ k, fuel = k + 1 := ⟨fuel - 1, by simp at hfuel; omega⟩
    exact (lowerNode_reference (by rw [ht]; exact hk) h hb hv).mono fun _ _ hx =>
      hx.relax (Nat.zero_le _)
  | @parenthesis i e he ih =>
    obtain ⟨⟨hk, hc⟩, hp, -⟩ := Tree.Displays.cons.mp hd
    obtain ⟨⟨hke, -⟩, -⟩ := Tree.Displays.cons.mp hp
    obtain ⟨fuel, rfl⟩ : ∃ k, fuel = k + 1 := ⟨fuel - 1, by simp at hfuel; omega⟩
    have hfuel' : (ids [e]).length ≤ fuel := by simpa using hfuel
    refine lowerNode_parenthesis (by rw [ht]; exact hk) ?_
    rw [ht, hf.children, hc]
    refine lowerStatements_single (by rw [ht, hke, he.not_alternative]) ?_
    exact (ih hp hfuel' ht hs h hb).mono fun _ _ hx => hx.relax (by simp)
  | @operator i o l q ho hl hr ihl ihr =>
    have hformat := (Expression.operator i ho hl hr).formatOf_eq hf hd hknown hw
    obtain ⟨⟨hk, hc⟩, hp, -⟩ := Tree.Displays.cons.mp hd
    obtain ⟨hdl, hdr⟩ := Tree.Displays.append.mp (show t.Displays f ([l] ++ [q]) from hp)
    obtain ⟨fuel, rfl⟩ : ∃ k, fuel = k + 1 := ⟨fuel - 1, by simp at hfuel; omega⟩
    have hlength : (ids [.node i (.operator o) [l, q]]).length =
        (ids [l]).length + (ids [q]).length + 1 := by
      simp
      omega
    obtain ⟨g, hg⟩ := Option.isSome_iff_exists.mp ho
    have hword : (Shape.node i (.operator o) [l, q]).word σ = g (l.word σ) (q.word σ) := by
      simp [Shape.word, Shape.words, NodeKind.wordOf, hg]
    rw [hlength, hword]
    refine lowerNode_operator (by rw [ht]; exact hk) (category_of_onWords? ho) ?_
    refine lowerArithmetic_spec (operandsOf_eq ht hf hc) (by rw [ht, hs]; exact hformat) hg
      (ihl hdl (by omega) ht hs h hb) fun W' r' h' hg' hb' => ?_
    have hr' := hg'.routine
    exact ihr hdr (by omega) (by rw [hr']; exact ht) (by rw [hr']; exact hs) h' (hb.grown hg' hb')

/-! ## Statements -/

theorem formatOfType_word (hw : HasWords symbols) (hs : r.symbols = symbols) :
    formatOfType (some (Primitive.ofFormat .i64)) r = .ok .i64 r := by
  obtain ⟨info, hinfo, hformat⟩ := hw
  have hask : ask (·.symbols.typeInfo (Primitive.ofFormat .i64)) r = .ok info r :=
    ask_eq (by rw [hs]; exact hinfo)
  unfold formatOfType
  simp only []
  rw [bind_of_ok hask, hformat]
  rfl

theorem HoldsWord.formatOfVariable_eq {v : VariableId} (hv : HoldsWord symbols v)
    (hw : HasWords symbols) (hs : r.symbols = symbols) :
    formatOfVariable v r = .ok .i64 r := by
  obtain ⟨info, hinfo, htype⟩ := hv
  have hask : variableOf v r = .ok info r := ask_eq (by rw [hs]; exact hinfo)
  unfold formatOfVariable
  rw [bind_of_ok hask, htype]
  exact formatOfType_word hw hs

theorem Draft.isBindable_eq (h : Draft n W r) (hx : x < r.values.size) :
    ∃ b, isBindable x .i64 r = .ok b r := by
  obtain ⟨c, hc, hdraft⟩ := h.exists_cell hx
  unfold isBindable
  rw [bind_of_ok (cellOf_eq hc), hdraft.format]
  rcases hdraft.place with hh | ⟨hh, -⟩ <;> rw [hh]
  · exact ⟨true, rfl⟩
  · exact ⟨c.metadata.vars.isEmpty, rfl⟩

theorem Draft.copy (h : Draft n W r) (hx : Stands n W r x w) :
    Runs (Generating.append (.duplicate x) .i64) r (Gives n W r 1 w) := by
  have hd : IsDirect (.duplicate x) := ⟨rfl, rfl, fun _ _ => rfl⟩
  refine h.append hd (show _ = [x] from rfl) ?_ w fun K he hu hw => ?_
  · simpa using ⟨hx.lt_size, hx.ne_marker⟩
  · refine .duplicate (hu x (by simp)) ?_
    rw [hw, he.word x hx.lt_size]
    exact hx.word.symm

/-- The step appended at most so many instructions, and known variables are bound to values that
stand for their words. -/
def Leaves (n : Nat) (W : ValueId → Word) (r : Routine) (k : Nat) (σ : VariableId → Word)
    (known : VariableId → Prop) (r' : Routine) : Prop :=
  ∃ W', Draft n W' r' ∧ Grown k W r W' r' ∧ Bound n W' r' σ known

/-- The assignment of a word to a variable. -/
theorem lowerAssignment_spec {lower : Lowering} {l q : NodeId} {v : VariableId}
    (hc : operandsOf i r = .ok (l, q) r) (hk : r.tree.kind l = .reference v)
    (hv : HoldsWord symbols v) (hw : HasWords symbols) (hs : r.symbols = symbols)
    (hq : Runs (lower q) r (GivesSome n W r k w)) (hb : Bound n W r σ known) :
    Runs (lowerAssignment lower i) r fun _ r' =>
      Leaves n W r (k + 1) (Function.update σ v w) (fun u => u = v ∨ known u) r' := by
  unfold lowerAssignment
  refine .step hc (.step (g := get) (a := r) rfl ?_)
  simp only [hk]
  refine .bind (valueOfNode_spec hq) ?_
  rintro x r₁ ⟨W₁, h₁, hg₁, hx, hb₁⟩
  have hs₁ : r₁.symbols = symbols := by
    rw [hg₁.routine]
    exact hs
  obtain ⟨b, hbindable⟩ := h₁.isBindable_eq hx.lt_size
  refine .step (hv.formatOfVariable_eq hw hs₁) (.step hbindable ?_)
  have bound (y : ValueId) (r₂ : Routine) (hy : Gives n W₁ r₁ 1 w y r₂) :
      Runs (do Generating.bind v y; return y) r₂ fun _ r' =>
        Leaves n W r (k + 1) (Function.update σ v w) (fun u => u = v ∨ known u) r' := by
    obtain ⟨W₂, h₂, hg₂, hy, hb₂⟩ := hy
    refine .bind (h₂.bind hy.lt_size v) ?_
    rintro - r₃ ⟨h₃, hg₃, hb₃⟩
    have hg := (hg₁.trans hg₂).trans hg₃
    refine .pure ⟨W₂, h₃, hg, hb.put hg ?_ (hy.grown hg₃)⟩
    rw [hb₃, hb₂, hb₁]
  cases b with
  | true => exact .bind (.pure (h₁.gives hx 1)) bound
  | false => exact .bind (h₁.copy hx) bound

/-! ## Returns -/

/-- **A function is drafted to its end**: the invariant of the lowering held before the last
instruction, which returns the word. -/
structure Complete (n : Nat) (W : ValueId → Word) (w : Word) (r : Routine) : Prop where
  cells : ∀ v c, r.values.cell? v = some c → Drafted W r.instructions.size v c
  opening : ∃ i, r.instructions[0]? = some i ∧ i.kind = .bindParameters (List.range n)
  parameters : ∀ v < n, Fresh (planOf W r.values) 0 v
  marker : Fresh (planOf W r.values) 0 n ∧ ((planOf W r.values).lifetime n).stop = 0
  computes : ∀ p i, 0 < p → p + 1 < r.instructions.size → r.instructions[p]? = some i →
    Fresh (planOf W r.values) p i.result ∧ Computes (planOf W r.values) p i.result i.kind
  made : ∀ v, n < v → v < r.values.size → (planOf W r.values).isConstant v = false →
    ∃ p i, 0 < p ∧ ((planOf W r.values).lifetime v).start = (p : Nat) ∧
      r.instructions[p]? = some i ∧ i.result = v
  closing : ∃ p i x, 0 < p ∧ r.instructions.size = p + 1 ∧ r.instructions[p]? = some i ∧
    i.kind = .ret (some x) ∧ Usable (planOf W r.values) ((planOf W r.values).Needed p) x ∧ W x = w

theorem Draft.first (h : Draft n W r) : 0 < r.instructions.size := by
  obtain ⟨i, hi, -⟩ := h.opening
  exact (Array.getElem?_eq_some_iff.mp hi).1

theorem Draft.ret (h : Draft n W r) (hx : Stands n W r x w) :
    Runs (Generating.append (.ret (some x)) .i64) r fun _ r' => ∃ W', Complete n W' w r' ∧
      Grown 1 W r W' r' ∧ r'.instructions.size = r.instructions.size + 1 := by
  have hd : IsDirect (.ret (some x)) := ⟨rfl, rfl, fun _ _ => rfl⟩
  refine (h.appended hd (show _ = [x] from rfl)
    (by simpa using ⟨hx.lt_size, hx.ne_marker⟩) 0).mono ?_
  rintro y _ ⟨rfl, values, rfl, hsize, hcontinues, hcells, husable, hfresh, hmarker⟩
  have hW : ∀ v < r.values.size, Function.update W r.values.size 0 v = W v :=
    fun v hv => Function.update_of_ne (Nat.ne_of_lt hv) ..
  have hplan := h.plan hcontinues hW
  let last : Instruction :=
    ⟨.ret (some x), r.values.size, InstructionKind.parameters (.ret (some x)), []⟩
  have hold {p : Nat} {i : Instruction} (hi : r.instructions[p]? = some i) :
      (r.instructions.push last)[p]? = some i := by
    rw [Array.getElem?_push, if_neg (Nat.ne_of_lt (Array.getElem?_eq_some_iff.mp hi).1), hi]
  have hnew : (r.instructions.push last)[r.instructions.size]? = some last := by simp
  refine ⟨Function.update W r.values.size 0, ⟨?_, ?_, fun v hv => hplan.fresh (h.parameters v hv),
    ⟨hplan.fresh h.marker.1, by rw [hmarker, h.marker.2]⟩, fun p i hp hlt hi => ?_,
    fun v hv hlt hk => ?_, ?_⟩, ⟨rfl, hplan, by simp, by simp⟩, Array.size_push ..⟩
  · simpa using hcells
  · obtain ⟨i, hi, hkind⟩ := h.opening
    exact ⟨i, hold hi, hkind⟩
  · simp only [Array.size_push, Nat.add_lt_add_iff_right] at hlt
    rw [Array.getElem?_push, if_neg (Nat.ne_of_lt hlt)] at hi
    obtain ⟨hf, hc⟩ := h.computes p i hp hi
    exact ⟨hplan.fresh hf, hplan.computes hf.lt_size hc⟩
  · by_cases hv' : v < r.values.size
    · rw [hplan.isConstant v hv'] at hk
      obtain ⟨p, i, hp, hstart, hpi, hres⟩ := h.made v hv hv' hk
      exact ⟨p, i, hp, (hplan.start v hv' hk).trans hstart, hold hpi, hres⟩
    · obtain rfl : v = r.values.size := by
        change v < values.size at hlt
        rw [hsize] at hlt
        exact Nat.le_antisymm (Nat.le_of_lt_succ hlt) (Nat.le_of_not_lt hv')
      exact ⟨_, _, h.first, hfresh.start_eq, hnew, rfl⟩
  · exact ⟨_, _, x, h.first, Array.size_push .., hnew, rfl, husable x (by simp),
      (hW x hx.lt_size).trans hx.word⟩

/-- The function returns words. -/
def ReturnsWord (symbols : SymbolTable) (function : FunctionId) : Prop :=
  ∃ info, symbols.functionInfo function = .ok info ∧
    info.returnType? = some (Primitive.ofFormat .i64)

theorem returnsDecimal_eq (hr : ReturnsWord symbols r.function) (hw : HasWords symbols)
    (hs : r.symbols = symbols) : returnsDecimal r = .ok false r := by
  obtain ⟨info, hinfo, htype⟩ := hr
  have hask : ask (fun r => r.symbols.functionInfo r.function) r = .ok info r :=
    ask_eq (by rw [hs]; exact hinfo)
  unfold returnsDecimal
  rw [bind_of_ok hask, htype, bind_of_ok (formatOfType_word hw hs)]
  rfl

/-- The function is drafted to its end, with at most so many more instructions. -/
def Completes (n : Nat) (W : ValueId → Word) (r : Routine) (k : Nat) (w : Word) (r' : Routine) :
    Prop := ∃ W', Complete n W' w r' ∧ Grown k W r W' r'

/-- The return of an expression. What holds behind the expression is told along with it. -/
theorem lowerReturn_spec {lower : Lowering} {q : NodeId} {E : (ValueId → Word) → Routine → Prop}
    (hc : r.tree.first? i = some q) (hr : ReturnsWord symbols r.function) (hw : HasWords symbols)
    (hs : r.symbols = symbols)
    (hq : Runs (lower q) r fun y r' => ∃ x W', y = some x ∧ Draft n W' r' ∧ Grown k W r W' r' ∧
      Stands n W' r' x w ∧ E W' r') :
    Runs (lowerReturn lower i) r fun _ r' => ∃ W', Complete n W' w r' ∧
      Grown (k + 1) W r W' r' ∧ ∃ W₁ r₁, E W₁ r₁ ∧ Grown 1 W₁ r₁ W' r' ∧
        r'.instructions.size = r₁.instructions.size + 1 := by
  unfold lowerReturn
  refine .step (g := get) (a := r) rfl ?_
  simp only [hc]
  refine .bind (Q := fun x r' => ∃ W', Draft n W' r' ∧ Grown k W r W' r' ∧ Stands n W' r' x w ∧
    E W' r') ?_ ?_
  · unfold valueOfNode
    refine .bind hq ?_
    rintro _ r₁ ⟨x, W₁, rfl, h₁⟩
    exact .pure ⟨W₁, h₁⟩
  rintro x r₁ ⟨W₁, h₁, hg₁, hx, hE⟩
  have hs₁ : r₁.symbols = symbols := by
    rw [hg₁.routine]
    exact hs
  have hr₁ : ReturnsWord symbols r₁.function := by
    rw [hg₁.routine]
    exact hr
  obtain ⟨c, hc, hdraft⟩ := h₁.exists_cell hx.lt_size
  refine .step (returnsDecimal_eq hr₁ hw hs₁) (.step (formatOf_eq hc) ?_)
  simp only [Bool.false_and, Bool.false_eq_true, if_false]
  refine .step (g := pure (some x)) (a := some x) rfl (.bind (h₁.ret hx) ?_)
  rintro - r₂ ⟨W₂, h₂, hg₂, hsize⟩
  exact .pure ⟨W₂, h₂, hg₁.trans hg₂, W₁, r₁, hE, hg₂, hsize⟩

/-! ## Bodies -/

theorem Completes.after {l : Nat} {r'' : Routine} (h : Completes n W' r' l w r'')
    (hg : Grown k W r W' r') : Completes n W r (k + l) w r'' := by
  obtain ⟨W'', h, hg'⟩ := h
  exact ⟨W'', h, hg.trans hg'⟩

/-- Statements in order. -/
theorem lowerStatements_cons {lower : Lowering} {last? : Option ValueId} {rest : List NodeId}
    {Q P : Option ValueId → Routine → Prop} (hk : (r.tree.kind i).isAlternative = false)
    (h : Runs (lower i) r Q)
    (hrest : ∀ x r', Q x r' → Runs (lowerStatements lower x rest) r' P) :
    Runs (lowerStatements lower last? (i :: rest)) r P := by
  rw [lowerStatements]
  refine .step (g := get) (a := r) rfl ?_
  simp only [hk, Bool.false_eq_true, if_false]
  exact .bind h hrest

/-- **A straight-line body returns its word.** At most one instruction is appended for each of its
nodes. -/
theorem Body.lower_spec {body : List Shape} (hbody : Body symbols known body) (hf : t.Forest f)
    (hd : t.Displays f body) (hknown : ∀ v, known v → HoldsWord symbols v) (hw : HasWords symbols)
    {fuel : Nat} (hfuel : (ids body).length ≤ fuel) (ht : r.tree = t) (hs : r.symbols = symbols)
    (hr : ReturnsWord symbols r.function) (h : Draft n W r) (hb : Bound n W r σ known)
    (last? : Option ValueId) :
    Runs (lowerStatements (lowerWithin fuel) last? (body.map (·.id))) r fun _ r' =>
      Completes n W r (ids body).length (returned σ body) r' := by
  induction hbody generalizing r W σ last? with
  | @assign known v e rest i j hv he hrest ih =>
    obtain ⟨⟨hk, hc⟩, hp, hdrest⟩ := Tree.Displays.cons.mp hd
    obtain ⟨⟨hkj, -⟩, -, hde⟩ := Tree.Displays.cons.mp hp
    have hlength : (ids (assignment i j v e :: rest)).length =
        ((ids [e]).length + 1) + 1 + (ids rest).length := by
      simp [assignment]
      omega
    rw [hlength] at hfuel ⊢
    obtain ⟨fuel, rfl⟩ : ∃ k, fuel = k + 1 := ⟨fuel - 1, by omega⟩
    have hki : r.tree.kind i = .operator .assign := by rw [ht]; exact hk
    refine lowerStatements_cons (i := i) (by rw [hki]; rfl)
      (Q := fun _ r' => Leaves n W r ((ids [e]).length + 1) (Function.update σ v (e.word σ))
        (fun u => u = v ∨ known u) r') ?_ ?_
    · rw [lowerWithin]
      unfold lowerNode
      refine .step (g := get) (a := r) rfl ?_
      rw [hki]
      have hsize : (ids [e]).length ≤ fuel := by omega
      have hsource := he.lower_spec hf hde hknown hw hsize ht hs h hb
      exact .map (lowerAssignment_spec (operandsOf_eq ht hf hc) (by rw [ht]; exact hkj) hv hw hs
        hsource hb)
    · rintro x r' ⟨W', h', hg, hb'⟩
      have hroutine := hg.routine
      refine (ih hdrest ?_ (by omega) (by rw [hroutine]; exact ht) (by rw [hroutine]; exact hs)
        (by rw [hroutine]; exact hr) h' hb' x).mono fun _ r'' hcomplete => ?_
      · rintro u (rfl | hu)
        · exact hv
        · exact hknown u hu
      · obtain ⟨W'', hcomplete, hg'⟩ := hcomplete.after hg
        exact ⟨W'', hcomplete, hg'.relax (by omega)⟩
  | @ret known e i he =>
    obtain ⟨⟨hk, hc⟩, hp, -⟩ := Tree.Displays.cons.mp hd
    have hlength : (ids [.node i .ret [e]]).length = (ids [e]).length + 1 := by simp
    rw [hlength] at hfuel ⊢
    obtain ⟨fuel, rfl⟩ : ∃ k, fuel = k + 1 := ⟨fuel - 1, by omega⟩
    have hki : r.tree.kind i = .ret := by rw [ht]; exact hk
    have hfirst : r.tree.first? i = some e.id := by
      rw [ht, hf.first, show f i = [e.id] from hc]
      rfl
    refine lowerStatements_single (q := i) (by rw [hki]; rfl) ?_
    rw [lowerWithin]
    unfold lowerNode
    refine .step (g := get) (a := r) rfl ?_
    rw [hki]
    have hlower := he.lower_spec hf hp hknown hw (show (ids [e]).length ≤ fuel by omega) ht hs h hb
    refine .bind (lowerReturn_spec (E := fun _ _ => True) hfirst hr hw hs
      (hlower.mono fun y r' ⟨x, hy, W', h', hg, hx, _⟩ => ⟨x, W', hy, h', hg, hx, trivial⟩)) ?_
    rintro - r' ⟨W', hcomplete, hg, -⟩
    exact .pure ⟨W', hcomplete, hg⟩

end Codegen.Straight
