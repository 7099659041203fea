import Codegen.Lowering.Expression
import Codegen.Proofs.Tree.Siblings
import Mathlib.Logic.Function.Basic

/-!
# Straight-line bodies

A straight-line body assigns words to variables and returns a word at its end. No variable is read
before it has a word. All arithmetic wraps around.

* `Shape.word`: the word that an expression stands for;
* `Straight.Expression`, `Straight.Body`: **straight-line bodies**;
* `Straight.returned`: the word that such a body returns;
* `Expression.formatOf_eq`: expressions have the format of words;
* `Straight.isBody`: a test for such bodies.
-/

namespace Codegen

/-! ## Words of expressions -/

/-- The word of a construct, given those of its parts and of the variables. -/
def NodeKind.wordOf (σ : VariableId → Word) : NodeKind → List Word → Word
  | number n _, _ => n.toWord
  | reference v, _ => σ v
  | operator o, [a, b] => o.onWords?.elim 0 fun f => f a b
  | parenthesis, [a] => a
  | _, _ => 0

namespace Shape

mutual

/-- The word that an expression stands for, given the words of the variables. -/
def word (σ : VariableId → Word) : Shape → Word
  | node _ k cs => k.wordOf σ (words σ cs)

/-- The words of expressions. -/
def words (σ : VariableId → Word) : List Shape → List Word
  | [] => []
  | s :: ss => s.word σ :: words σ ss

end

end Shape

namespace Straight

open Shape

/-! ## Bodies -/

/-- The variable holds words. -/
def HoldsWord (symbols : SymbolTable) (v : VariableId) : Prop :=
  ∃ info, symbols.variableInfo v = .ok info ∧ info.type? = some (Primitive.ofFormat .i64)

variable {symbols : SymbolTable} {known : VariableId → Prop} {v : VariableId} {e s : Shape}
variable {body : List Shape}

/-- An expression over words, which reads known variables only. -/
inductive Expression (known : VariableId → Prop) : Shape → Prop
  | number (i : NodeId) (w : Word) : Expression known (.node i (.number (.integer w) .i64) [])
  | reference (i : NodeId) {v : VariableId} (hv : known v) :
      Expression known (.node i (.reference v) [])
  | parenthesis (i : NodeId) {e : Shape} (he : Expression known e) :
      Expression known (.node i .parenthesis [e])
  | operator (i : NodeId) {o : Operator} {l r : Shape} (ho : o.onWords?.isSome = true)
      (hl : Expression known l) (hr : Expression known r) :
      Expression known (.node i (.operator o) [l, r])

/-- The assignment of a word to a variable. -/
def assignment (i j : NodeId) (v : VariableId) (e : Shape) : Shape :=
  .node i (.operator .assign) [.node j (.reference v) [], e]

/-- **A straight-line body**: assignments of words, and a return at the end. -/
inductive Body (symbols : SymbolTable) : (VariableId → Prop) → List Shape → Prop
  | assign {known : VariableId → Prop} {v : VariableId} {e : Shape} {rest : List Shape}
      (i j : NodeId) (hv : HoldsWord symbols v) (he : Expression known e)
      (h : Body symbols (fun u => u = v ∨ known u) rest) :
      Body symbols known (assignment i j v e :: rest)
  | ret {known : VariableId → Prop} {e : Shape} (i : NodeId) (he : Expression known e) :
      Body symbols known [.node i .ret [e]]

/-- The word that a straight-line body returns, given the words of the variables before it. -/
def returned (σ : VariableId → Word) : List Shape → Word
  | [] => 0
  | .node _ .ret [e] :: _ => e.word σ
  | .node _ (.operator .assign) [.node _ (.reference v) _, e] :: rest =>
    returned (Function.update σ v (e.word σ)) rest
  | _ :: rest => returned σ rest

@[simp] theorem returned_ret (σ : VariableId → Word) (i : NodeId) :
    returned σ [.node i .ret [e]] = e.word σ := rfl

@[simp] theorem returned_assignment (σ : VariableId → Word) (i j : NodeId) :
    returned σ (assignment i j v e :: body) = returned (Function.update σ v (e.word σ)) body := rfl

/-! ## Formats -/

section Formats

variable {t : Tree} {f : NodeId → List NodeId}

theorem category_of_onWords? {o : Operator} (h : o.onWords?.isSome = true) :
    o.category = .classic := by
  cases o <;> simp [Operator.onWords?] at h <;> rfl

theorem sharedType_self (symbols : SymbolTable) (i : TypeId) :
    symbols.sharedType (some i) (some i) = .ok (some i) := by
  rw [SymbolTable.sharedType, SymbolTable.sharedKnown, if_pos rfl]
  rfl

/-- The type of an expression is that of words, as far as the tree was looked into. -/
theorem Expression.typeWithin_eq (he : Expression known e) (hf : t.Forest f)
    (hd : t.Displays f [e]) (hknown : ∀ v, known v → HoldsWord symbols v) (fuel : Nat) :
    t.typeWithin symbols fuel e.id = .ok none ∨
      t.typeWithin symbols fuel e.id = .ok (some (Primitive.ofFormat .i64)) := by
  induction he generalizing fuel with
  | number i w =>
    obtain ⟨⟨hk, -⟩, -⟩ := Tree.Displays.cons.mp hd
    cases fuel with
    | zero => exact .inl rfl
    | succ fuel =>
      refine .inr ?_
      rw [Tree.typeWithin, hk]
      rfl
  | reference i hv =>
    obtain ⟨⟨hk, -⟩, -⟩ := Tree.Displays.cons.mp hd
    obtain ⟨info, hinfo, htype⟩ := hknown _ hv
    cases fuel with
    | zero => exact .inl rfl
    | succ fuel =>
      refine .inr ?_
      rw [Tree.typeWithin, hk]
      simp only [kind_node, hinfo, ← htype]
      rfl
  | parenthesis i _ ih =>
    obtain ⟨⟨hk, hc⟩, hp, -⟩ := Tree.Displays.cons.mp hd
    cases fuel with
    | zero => exact .inl rfl
    | succ fuel =>
      rw [Tree.typeWithin, hk]
      simp only [kind_node, hf.last, hc, parts_node, List.map_cons, List.map_nil,
        List.getLast?_singleton]
      exact ih hp fuel
  | operator i ho _ _ ihl ihr =>
    obtain ⟨⟨hk, hc⟩, hp, -⟩ := Tree.Displays.cons.mp hd
    obtain ⟨hl, hlp, hr⟩ := Tree.Displays.cons.mp hp
    cases fuel with
    | zero => exact .inl rfl
    | succ fuel =>
      rw [Tree.typeWithin, hk]
      simp only [kind_node, category_of_onWords? ho, hf.first, hf.last, hc, parts_node,
        List.map_cons, List.map_nil, List.head?_cons, List.getLast?_cons_cons,
        List.getLast?_singleton]
      rcases ihl (Tree.Displays.cons.mpr ⟨hl, hlp, by simp [Tree.Displays]⟩) fuel with h₁ | h₁ <;>
        rcases ihr hr fuel with h₂ | h₂ <;> rw [h₁, h₂]
      · exact .inl rfl
      · exact .inl rfl
      · exact .inl rfl
      · exact .inr (sharedType_self symbols (Primitive.ofFormat .i64))

/-- Words have their format in every table of symbols that has the built-in types. -/
def HasWords (symbols : SymbolTable) : Prop :=
  ∃ info, symbols.typeInfo (Primitive.ofFormat .i64) = .ok info ∧ info.format = .i64

/-- **Expressions have the format of words.** -/
theorem Expression.formatOf_eq (he : Expression known e) (hf : t.Forest f)
    (hd : t.Displays f [e]) (hknown : ∀ v, known v → HoldsWord symbols v)
    (hw : HasWords symbols) : t.formatOf symbols e.id = .ok .i64 := by
  obtain ⟨info, hinfo, hformat⟩ := hw
  unfold Tree.formatOf
  split
  next n g hk =>
    rw [((Tree.Displays.cons.mp hd).1).1] at hk
    cases he with
    | number => cases hk; rfl
    | _ => cases hk
  next =>
    rcases he.typeWithin_eq hf hd hknown (t.size + 1) with h | h
    · rw [Tree.typeOf, h]
      rfl
    · rw [Tree.typeOf, h]
      change (do return (← symbols.typeInfo (Primitive.ofFormat .i64)).format) = _
      rw [hinfo, ← hformat]
      rfl

end Formats

/-! ## A test for straight-line bodies -/

/-- Is the shape an expression over words, which reads known variables only? -/
def isExpression (known : List VariableId) : Shape → Bool
  | .node _ (.number (.integer _) .i64) [] => true
  | .node _ (.reference v) [] => known.contains v
  | .node _ .parenthesis [e] => isExpression known e
  | .node _ (.operator o) [l, r] =>
    o.onWords?.isSome && isExpression known l && isExpression known r
  | _ => false

theorem expression_of_isExpression {known : List VariableId} (h : isExpression known e) :
    Expression (· ∈ known) e := by
  fun_induction isExpression known e with
  | case1 i w => exact .number i w
  | case2 i v => exact .reference i (List.contains_iff_mem.mp h)
  | case3 i e ih => exact .parenthesis i (ih h)
  | case4 i o l r ihl ihr =>
    simp only [Bool.and_eq_true] at h
    exact .operator i h.1.1 (ihl h.1.2) (ihr h.2)
  | case5 => cases h

/-- Does the variable hold words? -/
def holdsWord (symbols : SymbolTable) (v : VariableId) : Bool :=
  (symbols.variableInfo v).toOption.any (·.type? == some (Primitive.ofFormat .i64))

theorem holdsWord_iff : holdsWord symbols v = true ↔ HoldsWord symbols v := by
  unfold holdsWord HoldsWord
  cases symbols.variableInfo v <;> simp [Except.toOption]

/-- Is the body a straight-line one, if the known variables have words? -/
def isBody (symbols : SymbolTable) : List VariableId → List Shape → Bool
  | known, [.node _ .ret [e]] => isExpression known e
  | known, .node _ (.operator .assign) [.node _ (.reference v) [], e] :: rest =>
    holdsWord symbols v && isExpression known e && isBody symbols (v :: known) rest
  | _, _ => false

theorem body_of_isBody {known : List VariableId} (h : isBody symbols known body) :
    Body symbols (· ∈ known) body := by
  fun_induction isBody symbols known body with
  | case1 known i e => exact .ret i (expression_of_isExpression h)
  | case2 known i j v e rest ih =>
    simp only [Bool.and_eq_true] at h
    refine .assign i j (holdsWord_iff.mp h.1.1) (expression_of_isExpression h.1.2) ?_
    simpa using ih h.2
  | case3 => cases h

end Straight

end Codegen
