import Codegen.Proofs.Evaluation.Exchange
import Codegen.Proofs.Evaluation.Rounds

/-!
# Folding and simplification of operators

An operator with a known outcome is exchanged for a literal, a logical operator with a literal
operand for a literal or for the other operand. In a condition each of them stands for the operator.

* `Ready`: **the tree of a program that is evaluated**;
* `Ready.outcome`: the outcome of an operator is that of the condition;
* `Ready.replaceByNumber`, `Ready.simplifyLogical`: **what takes the place of operators**.
-/

namespace Codegen

open Shape

/-! ## Trees that are evaluated -/

/-- **A tree that is evaluated**: the body is a list of statements, and its contexts are below a
bound. -/
structure Ready (stackless : Bool) (bound : Nat) (i : NodeId) (c : ContextId) (t : Tree)
    (X : List Shape) : Prop where
  shows : t.Shows (.node i (.scope c) X)
  block : Block stackless false false X
  direct : stackless = true → isStackless X = true
  contexts : ∀ m d, t.openedContext? m = some d → d < bound

namespace Ready

variable {stackless : Bool} {bound : Nat} {i : NodeId} {c : ContextId} {t t' : Tree}
variable {s o x : Shape} {X X' : List Shape} {f : NodeId → List NodeId}

section Reading

variable (h : Ready stackless bound i c t X)
include h

/-! ## Addresses on the stack -/

theorem source_mem {n m : NodeId} (hn : n ∈ ids X) (hm : t.sourceStep? i n = some m) :
    m ∈ ids X := by
  have last {a} (ha : a ∈ ids X) (hm : t.last? a = some m) : m ∈ ids X := by
    obtain ⟨u, hu, rfl⟩ := mem_ids.mp ha
    rw [h.shows.last hu] at hm
    obtain ⟨v, hv, rfl⟩ := Option.map_eq_some_iff.mp hm
    exact id_mem_ids (subs_trans hu (mem_subs_of_mem (List.mem_of_getLast? hv)))
  rw [Tree.sourceStep?] at hm
  split at hm
  · exact last hn hm
  · split at hm
    next a ha =>
      rw [Option.filter_eq_some_iff] at hm
      have hmem : a ∈ t.assignmentsTo i _ := ha ▸ List.mem_singleton_self a
      exact last ((h.shows.findAll_sublist _).subset (List.mem_of_mem_filter hmem)) hm.1
    · cases hm
  · cases hm

theorem not_isStackAddress_of_stackless (hst : stackless = true) {n : NodeId} (hn : n ∈ ids X) :
    t.isStackAddress i n = false := by
  have source : ∀ fuel n, n ∈ ids X → t.sourceWithin i fuel n ∈ ids X := by
    intro fuel
    induction fuel with
    | zero => exact fun n hn => hn
    | succ fuel ih =>
      intro n hn
      rw [Tree.sourceWithin]
      split
      next m hm => exact ih m (h.source_mem hn hm)
      · exact hn
  obtain ⟨u, hu, he⟩ := mem_ids.mp (source t.size n hn)
  have hall := isStackless_iff.mp (h.direct hst) (u.id, u.kind) (mem_labels.mpr ⟨u, hu, rfl, rfl⟩)
  rw [Tree.isStackAddress, Tree.sourceOf, ← he, h.shows.kind hu]
  split
  next x b y hk => exact absurd hk (hall x b y)
  · rfl

omit h in
theorem not_isStackAddress_of_kind {n : NodeId} (hn : (t.kind n).mayBeAddress = false) :
    t.isStackAddress i n = false := by
  have hstep : t.sourceStep? i n = none := by
    rw [Tree.sourceStep?]
    split <;> simp_all [NodeKind.mayBeAddress]
  have hsource : t.sourceOf i n = n := by
    rw [Tree.sourceOf]
    cases t.size <;> simp [Tree.sourceWithin, hstep]
  rw [Tree.isStackAddress, hsource]
  split
  next hk => simp [hk, NodeKind.mayBeAddress] at hn
  · rfl

theorem not_comparesStack {o : Operator} {l r : Shape} (hl : l ∈ subs X) (hr : r ∈ subs X)
    (hopen : staysOpen stackless o l.kind r.kind = true) :
    t.comparesStackWithZero i o l.id r.id = false := by
  have zero {u : Shape} (hu : u ∈ subs X) (hz : t.isZeroLiteral u.id = true) :
      u.kind.mayBeLiteral = true := by
    rw [Tree.isZeroLiteral, h.shows.kind hu] at hz
    cases hk : u.kind <;> simp_all [NodeKind.number?, NodeKind.mayBeLiteral, NodeKind.isNumber]
  have stack {u : Shape} (hu : u ∈ subs X) (hz : t.isStackAddress i u.id = true) :
      stackless = false ∧ u.kind.mayBeAddress = true := by
    constructor
    · refine Bool.eq_false_iff.mpr fun hst => ?_
      rw [h.not_isStackAddress_of_stackless hst (id_mem_ids hu)] at hz
      cases hz
    · rw [← h.shows.kind hu]
      refine Bool.not_eq_false _ ▸ fun hk => ?_
      rw [not_isStackAddress_of_kind hk] at hz
      cases hz
  rw [Bool.eq_false_iff]
  intro hc
  simp only [Tree.comparesStackWithZero, Bool.and_eq_true, Bool.or_eq_true] at hc
  obtain ⟨heq, ⟨hz, ha⟩ | ⟨hz, ha⟩⟩ := hc
  · obtain ⟨rfl, ha⟩ := stack hr ha
    have hz := zero hl hz
    simp_all [staysOpen]
  · obtain ⟨rfl, ha⟩ := stack hl ha
    have hz := zero hr hz
    simp_all [staysOpen]

end Reading

/-! ## Known outcomes -/

theorem truth_number {q : Shape} {v : Number} (hv : q.kind.number? = some v) (σ : Truth) :
    q.truth σ = !v.isZero := by
  obtain ⟨j, k, cs⟩ := q
  cases k <;> simp_all [NodeKind.number?, truth]

section Outcome

variable (h : Ready stackless bound i c t X)
include h

/-- **The known outcome of an operator is that of the condition.** -/
theorem outcome (hs : s ∈ subs X) (hq : Test stackless s) {b : Bool}
    (hb : t.outcome? i s.id = some b) (σ : Truth) : s.truth σ = b := by
  cases hq with
  | literal j v g =>
    have hkind : t.kind j = _ := h.shows.kind hs
    simp [Tree.outcome?, hkind, NodeKind.operator?] at hb
  | @comparison j o ho a v g d w g' =>
    have hstack {n : NodeId} {v : Number} {g : Format} (hn : node n (.number v g) [] ∈ subs X) :
        t.isStackAddress i n = false := by
      have hkind : t.kind n = .number v g := h.shows.kind hn
      exact not_isStackAddress_of_kind (by simp [hkind, NodeKind.mayBeAddress])
    have ha := hstack (subs_trans hs (c := node a (.number v g) []) (by simp))
    have hd := hstack (subs_trans hs (c := node d (.number w g') []) (by simp))
    rw [id_node, h.shows.outcome_eq hs (.inl ho)] at hb
    simp only [Tree.comparesStackWithZero, id_node, ha, hd, Bool.and_false, Bool.or_self,
      Bool.false_eq_true, if_false, kind_node, NodeKind.number?, Option.bind_some] at hb
    cases o <;>
      simp_all [truth, literalOutcome?, Tree.decideNumbers?, Comparison.ofOperator?,
        NodeKind.number?, Operator.isComparison, Operator.category]
  | @logical j o ho l r hl hr =>
    have hstack : t.comparesStackWithZero i o l.id r.id = false := by
      cases o <;> simp_all [Tree.comparesStackWithZero, Operator.isLogical, Operator.category]
    rw [id_node, h.shows.outcome_eq hs (.inr ho), hstack] at hb
    obtain ⟨a, ha, hb⟩ := Option.bind_eq_some_iff.mp hb
    obtain ⟨d, hd, hb⟩ := Option.bind_eq_some_iff.mp hb
    cases o <;>
      simp_all [truth, truth_number ha, truth_number hd, Tree.decideNumbers?, Operator.isLogical,
        Operator.category]
  | @atom j k hk hn cs hcs =>
    have hkind : t.kind j = k := h.shows.kind hs
    cases k with
    | operator o =>
      simp [Tree.outcome?, hkind, NodeKind.operator?] at hb
      simp_all [NodeKind.isPlain, NodeKind.isReducible]
    | _ => simp [Tree.outcome?, hkind, NodeKind.operator?] at hb
  | @compared j o ho l r hopen hc =>
    have hstack := h.not_comparesStack (subs_trans hs (c := l) (by simp))
      (subs_trans hs (c := r) (by simp)) hopen
    rw [id_node, h.shows.outcome_eq hs (.inl ho), hstack] at hb
    obtain ⟨a, ha, hb⟩ := Option.bind_eq_some_iff.mp hb
    obtain ⟨d, hd, hb⟩ := Option.bind_eq_some_iff.mp hb
    have hl := NodeKind.isNumber_iff.mpr ⟨a, ha⟩
    have hr := NodeKind.isNumber_iff.mpr ⟨d, hd⟩
    simp [staysOpen, NodeKind.mayBeLiteral, hl, hr] at hopen

end Outcome

end Ready

/-! ## Exchanges of operators -/

namespace Ready

variable {stackless : Bool} {bound : Nat} {i : NodeId} {c : ContextId} {t t' : Tree}
variable {s o : Shape} {X X' : List Shape}

/-- What a simplification leaves: the same statements run, and there is less to simplify. -/
structure Simplified (stackless : Bool) (bound : Nat) (i : NodeId) (c : ContextId) (t' : Tree)
    (X X' : List Shape) : Prop where
  ready : Ready stackless bound i c t' X'
  alike : Alike stackless false false X X'
  fewer : openings X' < openings X

/-- **A literal in the place of an operator that has its outcome.** -/
theorem replaceByNumber (h : Ready stackless bound i c t X) (hs : s ∈ subs X)
    (hred : s.kind.isReducible = true) {b : Bool}
    (hb : Test stackless s → ∀ σ, s.truth σ = b) :
    ∃ X' x, Rewrites [s] [x] X X' ∧ x.parts = [] ∧
      Simplified stackless bound i c (t.replaceByNumber s.id (Tree.truth b)) X X' := by
  have hx : StandsFor stackless (node t.size (.number (.integer (Tree.truth b)) .i64) []) s := by
    refine ⟨fun _ => ?_, fun _ => .literal _ _ _, fun hq σ => ?_⟩
    · exact calm_cons.mpr ⟨rfl, calm_nil, calm_nil⟩
    · rw [hb hq]
      cases b <;> simp [truth, Number.isZero, Tree.truth]
  obtain ⟨X', hr, ha⟩ := h.block.exchange_operator hs hred hx
  refine ⟨X', _, hr, rfl, ⟨h.shows.replaceByNew hs _ hr, ha.right, fun hst => ?_,
    fun m d hm => h.contexts m d (Tree.openedContext?_replaceByNumber hm)⟩, ha, ?_⟩
  · exact isStackless_rewrites hr (h.direct hst) (by simp [isStackless])
  · have hopen := openings_rewrites hr
    simp only [openings_cons, openings_nil, kind_node, parts_node, NodeKind.isOpen, hred] at hopen
    simp [NodeKind.isReducible, NodeKind.isConditional] at hopen
    omega

/-- **An operand in the place of a logical operator that has its outcome.** -/
theorem replaceByOperand (h : Ready stackless bound i c t X) (hs : s ∈ subs X)
    (hred : s.kind.isReducible = true) (ho : o ∈ s.parts) (hx : StandsFor stackless o s) :
    ∃ X', Rewrites [s] [o] X X' ∧ Simplified stackless bound i c (t.replace s.id o.id) X X' := by
  obtain ⟨X', hr, ha⟩ := h.block.exchange_operator hs hred hx
  have hrel := (Tree.Relinked.refl t).replace s.id o.id
  have hsub : subs [o] ⊆ subs s.parts := by
    intro u hu
    rw [subs_cons, subs_nil, List.append_nil] at hu
    rcases List.mem_cons.mp hu with rfl | hu
    · exact mem_subs_of_mem ho
    · exact mem_subs_of_parts ho hu
  refine ⟨X', hr, ⟨h.shows.replaceByPart hs ho hr, ha.right, fun hst => ?_, ?_⟩, ha, ?_⟩
  · refine isStackless_rewrites hr (h.direct hst) ?_
    have hX := h.direct hst
    rw [isStackless, List.all_eq_true] at hX ⊢
    exact fun u hu => hX u (subs_trans hs (hsub hu))
  · intro m d hm
    refine h.contexts m d ?_
    rwa [Tree.openedContext?, hrel.kind, ← Tree.openedContext?] at hm
  · have hopen := openings_rewrites hr
    obtain ⟨as, bs, hparts⟩ := List.append_of_mem ho
    simp only [openings_cons (s := s), hparts, openings_append, openings_cons (s := o),
      openings_nil, NodeKind.isOpen, hred] at hopen
    simp at hopen
    omega

theorem not_isLogical {o : Operator} (ho : o.isComparison = true) : o.isLogical = false := by
  revert ho
  cases o <;> decide

/-- A logical operator in a condition has two operands. -/
theorem logical_parts {q : Shape} {o : Operator} (hq : Test stackless q)
    (hk : q.kind = .operator o) (ho : o.isLogical = true) :
    ∃ l r, q.parts = [l, r] ∧ Test stackless l ∧ Test stackless r ∧
      ∀ σ, q.truth σ = if o = .and then l.truth σ && r.truth σ else l.truth σ || r.truth σ := by
  cases hq with
  | literal => cases hk
  | @comparison i o' ho' =>
    obtain rfl := NodeKind.operator.inj hk
    rw [not_isLogical ho'] at ho
    cases ho
  | @logical i o' ho' l r hl hr =>
    obtain rfl := NodeKind.operator.inj hk
    refine ⟨l, r, rfl, hl, hr, fun σ => ?_⟩
    cases o' <;> simp_all [truth, Operator.isLogical, Operator.category]
  | atom i hp hn hcs =>
    rw [kind_node] at hk
    simp_all [NodeKind.isPlain, NodeKind.isReducible]
  | @compared i o' ho' =>
    obtain rfl := NodeKind.operator.inj hk
    rw [not_isLogical ho'] at ho
    cases ho

/-- **One simplification keeps what runs.** -/
theorem simplifyLogical (h : Ready stackless bound i c t X) (hs : s ∈ subs X)
    (ht : t.simplifyLogical? s.id = some t') :
    ∃ X' x, Rewrites [s] [x] X X' ∧ Simplified stackless bound i c t' X X' := by
  obtain ⟨o, l, r, v, w, hk, ho, hl, hr, hlit, ht⟩ := h.shows.simplifyLogical_eq hs ht
  have hred : s.kind.isReducible = true := by simp [hk, NodeKind.isReducible, ho]
  have hw : w ∈ s.parts := by
    rcases hlit with ⟨-, rfl⟩ | ⟨-, rfl⟩
    · exact List.mem_of_getLast? hr
    · exact List.mem_of_mem_head? hl
  have htest (hq : Test stackless s) : Test stackless w ∧ ∀ σ, s.truth σ =
      if o = .and then !v.isZero && w.truth σ else !v.isZero || w.truth σ := by
    obtain ⟨l', r', hparts, hl', hr', hholds⟩ := logical_parts hq hk ho
    rw [hparts] at hl hr
    obtain rfl : l' = l := by simpa using hl
    obtain rfl : r' = r := by simpa using hr
    rcases hlit with ⟨hv, rfl⟩ | ⟨hv, rfl⟩
    · exact ⟨hr', fun σ => by rw [hholds, truth_number hv]⟩
    · exact ⟨hl', fun σ => by rw [hholds, truth_number hv, Bool.and_comm, Bool.or_comm]⟩
  by_cases hz : v.isZero = (o == .and)
  · -- the literal decides
    rw [if_pos hz] at ht
    have hb (hq : Test stackless s) (σ : Truth) : s.truth σ = (o != .and) := by
      rw [(htest hq).2, hz]
      cases o <;> rfl
    obtain ⟨X', x, hr, -, hX'⟩ := h.replaceByNumber hs hred hb
    exact ⟨X', x, hr, ht ▸ hX'⟩
  · -- the other operand does
    rw [if_neg hz] at ht
    have hx : StandsFor stackless w s := by
      refine ⟨fun hc u hu => hc u ?_, fun hq => (htest hq).1, fun hq σ => ?_⟩
      · rw [subs_cons, subs_nil, List.append_nil] at hu ⊢
        refine List.mem_cons_of_mem _ ?_
        rcases List.mem_cons.mp hu with rfl | hu
        · exact mem_subs_of_mem hw
        · exact mem_subs_of_parts hw hu
      · rw [(htest hq).2]
        by_cases hand : o = .and
        · subst hand
          simp_all
        · have hne : (o == .and) = false := by simpa using hand
          rw [if_neg hand]
          simp_all
    obtain ⟨X', hr, hX'⟩ := h.replaceByOperand hs hred hw hx
    exact ⟨X', w, hr, ht ▸ hX'⟩

end Ready

end Codegen
