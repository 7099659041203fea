import Codegen.Proofs.Control.Structured
import Codegen.Proofs.Lowering.Leaders

/-!
# Values and the parts that they stand for

An instruction names values, and an event of the source names parts. A value denotes a part if the
finished routine made it for the part. A literal is a constant, and a variable is a value that
stands for the variable; which of its values is the present one is no matter of control flow. The
value of an operation was made of the values of its operands, in their order unless the operation
commutes. An instruction carries an event out if its operands denote the operands of the event.
Leaders keep their places and variables, so what a value denotes is settled as soon as it is made.

* `Routine.Before`: a routine from which the lowering goes on to another one;
* `Routine.Denotes`: **a value denotes a part**;
* `Routine.Carries`: **an instruction carries an event out**;
* `Gives`: the value of a part, whatever is lowered later;
* `gives_number`, `gives_operation`, ...: the values of expressions.
-/

namespace Codegen

open Generating

/-! ## What is lowered later -/

/-- The lowering goes on from a routine to another one. No instruction goes away, and leaders keep
their places and variables. -/
structure Routine.Before (r r' : Routine) : Prop where
  instructions : r.instructions.toList <+: r'.instructions.toList
  onward : Onward r.values r'

/-- The value is the result of such an instruction. -/
def Routine.Makes (R : Routine) (k : InstructionKind) (x : ValueId) : Prop :=
  ∃ i ∈ R.instructions.toList, i.kind = k ∧ i.result = x

variable {r r' r₁ r₂ R : Routine} {x y z w : ValueId} {k : InstructionKind} {u : Unit}

namespace Routine.Before

theorem refl (hr : r.Led) : r.Before r := ⟨List.prefix_rfl, hr.onward⟩

theorem trans (h : r.Before r₁) (h' : r₁.Before r') : r.Before r' :=
  ⟨h.instructions.trans h'.instructions, h.onward.trans h'.onward⟩

theorem led (h : r.Before r') : r'.Led := h.onward.led

theorem leader (h : r.Before r') (hx : r.values.Leader x) : r'.values.Leader x :=
  h.onward.leader x hx

theorem handle (h : r.Before r') (hx : r.values.Leader x) :
    r'.values.handleAt x = r.values.handleAt x := (h.onward.keeps x hx).handle

theorem kinds (h : r.Before r') : r.kinds <+: r'.kinds := h.instructions.map _

theorem makes (h : r.Before r') (hx : r.Makes k x) : r'.Makes k x :=
  hx.imp fun _ hi => ⟨h.instructions.subset hi.1, hi.2⟩

theorem of_appended (h : Appended k r x r') (ho : Onward r.values r') : r.Before r' := by
  obtain ⟨values, rfl, -⟩ := h.routine
  exact ⟨by simp, ho⟩

theorem of_eq (he : r'.instructions = r.instructions) (ho : Onward r.values r') : r.Before r' :=
  ⟨he ▸ List.prefix_rfl, ho⟩

end Routine.Before

theorem Generating.Appended.makes (h : Appended k r x r') : r'.Makes k x := by
  obtain ⟨values, rfl, -⟩ := h.routine
  exact ⟨⟨k, x, k.parameters, []⟩, by simp, rfl, rfl⟩

/-! ## What values denote -/

/-- The last of some statements that is not the later branch of a chain. -/
def Shape.lastStatement? (cs : List Shape) : Option Shape :=
  (cs.filter fun c => !c.kind.isAlternative).getLast?

namespace Routine

variable (R : Routine) (symbols : SymbolTable)

/-- A value, or a copy of it. -/
def Copies (x y : ValueId) : Prop := y = x ∨ R.Makes (.duplicate x) y

/-- What an operation gives: its first operand, a constant, or the result of an instruction. -/
inductive Computes (o : Operator) (x y z : ValueId) : Prop
  | first (hz : z = x) (hn : isNeutral o (R.values.handleAt y).constant? = true)
  | constant {c : Number} (hz : R.values.handleAt z = .constant c) (hc : Folds o R.values x y c)
  | instruction {k : InstructionKind} (hk : arithmetic? x y o = some k) (hz : R.Makes k z)

/-- **A value denotes a part.** -/
inductive Denotes : Shape → ValueId → Prop
  | number {s : Shape} {v : Number} {f : Format} {x : ValueId} (hk : s.kind = .number v f)
      (hx : R.values.handleAt x = .constant v) : Denotes s x
  | reference {s : Shape} {v : VariableId} {x : ValueId} (hk : s.kind = .reference v)
      (hx : v ∈ R.values.varsAt x) : Denotes s x
  | stackAddress {s : Shape} {identity name : String} {bytes : Nat} {i : TypeId} {x : ValueId}
      (hk : s.kind = .stackAddress identity bytes i) (hx : R.Makes (.allocateStack name bytes) x) :
      Denotes s x
  | arithmetic {s l m : Shape} {o : Operator} {x y z : ValueId} (hk : s.kind = .operator o)
      (hl : s.parts.head? = some l) (hm : s.parts.getLast? = some m) (hx : Denotes l x)
      (hy : Denotes m y)
      (hz : R.Computes o x y z ∨ (o = .add ∨ o = .multiply) ∧ R.Computes o y x z) : Denotes s z
  | assignment {s l m : Shape} {o : Operator} {v : VariableId} {x z : ValueId}
      (hk : s.kind = .operator o) (ho : o.category = .assign) (hl : s.parts.head? = some l)
      (hv : l.kind = .reference v) (hm : s.parts.getLast? = some m) (hx : Denotes m x)
      (hc : R.Copies x z) (hz : v ∈ R.values.varsAt z) : Denotes s z
  | store {s l m : Shape} {o : Operator} {z : ValueId} (hk : s.kind = .operator o)
      (ho : o.category = .assign) (hl : s.parts.head? = some l) (hv : l.isMemory = true)
      (hm : s.parts.getLast? = some m) (hz : Denotes m z) : Denotes s z
  | link {s l m : Shape} {v : VariableId} {x z : ValueId} {offset : Word} (hk : s.kind = .link)
      (hl : s.parts.head? = some l) (hm : s.parts.getLast? = some m) (hv : m.kind = .reference v)
      (ho : MemberAt symbols v offset) (hx : Denotes l x)
      (hz : R.Makes (.getObjectPointer x offset) z) : Denotes s z
  | offset {s l m : Shape} {x y z : ValueId} (hk : s.kind = .offset)
      (hl : s.parts.head? = some l) (hm : s.parts.getLast? = some m) (hx : Denotes l x)
      (hy : Denotes m y) (hz : R.Makes (.getMemoryAddress x y elementStride) z) : Denotes s z
  | call {s : Shape} {f : FunctionId} {symbol : String} {xs : List ValueId} {z : ValueId}
      (hk : s.kind = .call f) (hs : symbols.symbol f = .ok symbol)
      (hx : List.Forall₂ Denotes s.parts xs) (hz : R.Makes (.call symbol xs) z) : Denotes s z
  /-- The value of statements is that of the last one. -/
  | statements {s c : Shape} {x : ValueId} (hk : (∃ i, s.kind = .scope i) ∨ s.kind = .parenthesis)
      (hc : Shape.lastStatement? s.parts = some c) (hx : Denotes c x) : Denotes s x

/-- **An instruction carries an event out**: its operands denote the operands of the event, in the
same order. -/
inductive Carries : InstructionKind → Event → Prop
  | compare {l m : Shape} {x y : ValueId} (hx : R.Denotes symbols l x)
      (hy : R.Denotes symbols m y) : Carries (.compare x y) (.compare (some l) (some m))
  | truth {s : Shape} {x y : ValueId} {n : Number} (hx : R.Denotes symbols s x)
      (hy : R.values.handleAt y = .constant n) (hn : n.isZero = true) :
      Carries (.compare x y) (.compare (some s) none)
  | call {f : FunctionId} {symbol : String} {cs : List Shape} {xs : List ValueId}
      (hs : symbols.symbol f = .ok symbol) (hx : List.Forall₂ (R.Denotes symbols) cs xs) :
      Carries (.call symbol xs) (.call f cs)
  | store {p s : Shape} {x y : ValueId} (hx : R.Denotes symbols p x)
      (hy : R.Denotes symbols s y) : Carries (.move x y) (.store (some p) (some s))
  | ret : Carries (.ret none) (.ret none)
  | retValue {s : Shape} {x y : ValueId} (hx : R.Denotes symbols s x) (hy : R.Copies x y) :
      Carries (.ret (some y)) (.ret (some s))

/-- Instructions carry events out, one after the other. -/
abbrev Matches (ks : List InstructionKind) (h : History) : Prop :=
  List.Forall₂ (R.Carries symbols) ks h

variable {R symbols} {e : Event} {h : History} {ks : List InstructionKind}

theorem Carries.isEvent (h : R.Carries symbols k e) : k.isEvent = true := by
  cases h <;> rfl

theorem Carries.isCompare (h : R.Carries symbols k e) : k.isCompare = e.isCompare := by
  cases h <;> rfl

theorem Matches.comparisons (h' : R.Matches symbols ks h) :
    Codegen.comparisons ks = h.comparisons := by
  induction h' with
  | nil => rfl
  | cons hk _ ih =>
    rw [Codegen.comparisons, History.comparisons] at ih ⊢
    rw [List.countP_cons, List.countP_cons, hk.isCompare, ih]

/-- What was carried out up to an earlier point. -/
theorem Matches.suffix {ks' : List InstructionKind} (h' : R.Matches symbols ks h)
    (hs : ks' <:+ ks) : ∃ h₀, h₀ <:+ h ∧ R.Matches symbols ks' h₀ := by
  obtain ⟨ks₀, rfl⟩ := hs
  refine ⟨h.drop ks₀.length, List.drop_suffix _ _, ?_⟩
  have hdrop := List.forall₂_drop ks₀.length h'
  rwa [List.drop_left] at hdrop

end Routine

/-! ## The values of parts -/

/-- The value of a part leads, and denotes the part whatever is lowered later. -/
structure Gives (R : Routine) (symbols : SymbolTable) (s : Shape) (r : Routine) (x : ValueId) :
    Prop where
  leader : r.values.Leader x
  denotes : r.Before R → R.Denotes symbols s x

variable {symbols : SymbolTable} {s l m : Shape} {o : Operator} {v : VariableId} {f : Format}

/-- The values of parts lead. -/
theorem leads_of_gives {cs : List Shape} {xs : List ValueId}
    (h : List.Forall₂ (fun c => Gives R symbols c r) cs xs) : ∀ x ∈ xs, r.values.Leader x := by
  induction h with
  | nil => simp
  | cons hx _ ih => exact List.forall_mem_cons.mpr ⟨hx.leader, ih⟩

theorem Gives.before (h : Gives R symbols s r x) (hb : r.Before r') : Gives R symbols s r' x :=
  ⟨hb.leader h.leader, fun h' => h.denotes (hb.trans h')⟩

theorem Generating.create_handleAt {h : Handle} (hc : Takes (create h f) r x r') :
    r'.values.handleAt x = h := by
  obtain ⟨rfl, rfl⟩ := takes_create.mp hc
  exact Arena.handleAt_eq (Array.getElem?_push_size ..)

theorem Generating.create_before {h : Handle} (hc : Takes (create h f) r x r') (hr : r.Led)
    (hh : h.Refers r.values.Leader) : r.Before r' :=
  .of_eq (by rw [(takes_create.mp hc).2]) (create_onward hc hr hh).1

theorem Generating.append_before (h : Takes (append k f) r x r') (hr : r.Led)
    (hk : ∀ q ∈ k.parameters, r.values.Leader q.value) : r.Before r' :=
  .of_appended (append_appended h) (append_onward h hr hk).1

/-- The operands of an instruction lead. -/
theorem Generating.pair_leads {p q : Parameter} (hp : r.values.Leader p.value)
    (hq : r.values.Leader q.value) : ∀ q' ∈ [p, q], r.values.Leader q'.value := by
  intro q' hm
  rcases List.mem_pair.mp hm with rfl | rfl
  · exact hp
  · exact hq

theorem gives_number {n : Number} (hk : s.kind = .number n f) (hr : r.Led)
    (h : Takes (create (.constant n) f) r x r') : Gives R symbols s r' x := by
  have hx := (create_onward h hr (constant_refers n)).2
  refine ⟨hx, fun hb => .number hk ?_⟩
  rw [hb.handle hx, create_handleAt h]

theorem Binding.mem_put (bs : List Binding) : (v, x) ∈ Binding.put v x bs := by
  induction bs with
  | nil => simp [Binding.put]
  | cons b bs ih =>
    rw [Binding.put]
    split
    · exact List.mem_cons_self
    · split
      · exact List.mem_cons_self
      · exact List.mem_cons_of_mem _ ih

theorem Generating.bind_varsAt (h : Takes (bind v x) r u r') (hr : r'.Led) :
    v ∈ r'.values.varsAt x := by
  obtain ⟨r₁, -, rfl⟩ := bind_revalued h
  exact hr.held (v, x) (Binding.mem_put _)

theorem Generating.valueOf_varsAt (h : Takes (valueOf v) r x r') (hr : r.Led) :
    v ∈ r'.values.varsAt x := by
  rcases valueOf_cases h with ⟨hx, rfl⟩ | h
  · obtain ⟨before, after, hb, -⟩ := List.lookup_eq_some_iff.mp hx
    exact hr.held (v, x) (by simp [hb])
  · obtain ⟨r₁, f, -, h₂⟩ := takes_bindToSlot h
    exact bind_varsAt h₂ (bindToSlot_onward h hr).1.led

theorem gives_reference (hk : s.kind = .reference v) (hr : r.Led)
    (h : Takes (valueOf v) r x r') : Gives R symbols s r' x := by
  have hx := (valueOf_onward h hr).2
  exact ⟨hx, fun hb => .reference hk ((hb.onward.keeps x hx).vars (valueOf_varsAt h hr))⟩

/-- What was known to be constant still is. -/
theorem Routine.Before.folds (hb : r.Before R) (hx : r.values.Leader x) (hy : r.values.Leader y)
    {c : Number} (h : Folds o r.values x y c) : Folds o R.values x y c := by
  cases h with
  | both hp hq hc f => exact .both (by rwa [hb.handle hx]) (by rwa [hb.handle hy]) hc f
  | annihilating hq => exact .annihilating (by rwa [hb.handle hy])

theorem computes_of_combined (h : Combined o x y r z r') (hr : r.Led) (hx : r.values.Leader x)
    (hy : r.values.Leader y) (hb : r'.Before R) : R.Computes o x y z := by
  cases h with
  | first hz hr' hn =>
    subst hr'
    exact .first hz (by rwa [hb.handle hy])
  | constant h hc =>
    have hz := (create_onward h hr (constant_refers _)).2
    have hR := (create_before h hr (constant_refers _)).trans hb
    refine .constant ?_ (hR.folds hx hy hc)
    rw [hb.handle hz, create_handleAt h]
  | instruction hk h => exact .instruction hk (hb.makes (append_appended h).makes)

theorem gives_operation (hk : s.kind = .operator o) (hl : s.parts.head? = some l)
    (hm : s.parts.getLast? = some m) (hr : r.Led) (hx : Gives R symbols l r x)
    (hy : Gives R symbols m r y) (h : Operated o x y r z r') (hb : r.Before r') :
    Gives R symbols s r' z := by
  refine ⟨(operated_onward h hr hx.leader hy.leader).2, fun hR => ?_⟩
  refine .arithmetic hk hl hm (hx.denotes (hb.trans hR)) (hy.denotes (hb.trans hR)) ?_
  rcases h with h | ⟨ho, h⟩
  · exact .inl (computes_of_combined h hr hx.leader hy.leader hR)
  · exact .inr ⟨ho, computes_of_combined h hr hy.leader hx.leader hR⟩

/-- The value that an instruction gives to a part. -/
theorem gives_append (h : Takes (append k f) r x r') (hr : r.Led)
    (hk : ∀ q ∈ k.parameters, r.values.Leader q.value) (he : k.isEcho = false)
    (hd : r.Before R → R.Makes k x → R.Denotes symbols s x) : Gives R symbols s r' x :=
  ⟨(append_onward h hr hk).2 he, fun hb =>
    hd ((append_before h hr hk).trans hb) (hb.makes (append_appended h).makes)⟩

theorem Generating.Copied.copies (h : Copied x r y r') (hb : r'.Before R) : R.Copies x y := by
  rcases h with ⟨rfl, -⟩ | ⟨f, h⟩
  · exact .inl rfl
  · exact .inr (hb.makes (append_appended h).makes)

theorem gives_assignment (hk : s.kind = .operator o) (ho : o.category = .assign)
    (hl : s.parts.head? = some l) (hv : l.kind = .reference v) (hm : s.parts.getLast? = some m)
    (hr : r.Led) (hx : Gives R symbols m r x) (hc : Copied x r z r₁) (h : Takes (bind v z) r₁ u r')
    (hb : r.Before r₁) : Gives R symbols s r' z := by
  obtain ⟨o₁, hz⟩ := copied_onward hc hr hx.leader
  have o₂ := bind_onward h o₁.led hz
  have hb' : r₁.Before r' := .of_eq (by obtain ⟨_, ⟨_, rfl, -⟩, rfl⟩ := bind_revalued h; rfl) o₂
  have hz' := hb'.leader hz
  refine ⟨hz', fun hR => ?_⟩
  exact .assignment hk ho hl hv hm (hx.denotes (hb.trans (hb'.trans hR))) (hc.copies (hb'.trans hR))
    ((hR.onward.keeps z hz').vars (bind_varsAt h o₂.led))

end Codegen
