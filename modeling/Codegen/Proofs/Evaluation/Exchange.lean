import Codegen.Proofs.Evaluation.Meaning
import Codegen.Proofs.Tree.Splice

/-!
# Exchanges inside of statement trees

An operator may be exchanged for a node that stands for the same, and a list of statements for one
that runs the same, wherever they are in a statement tree.

* `Shape.StandsFor`, `Block.exchange_operator`: **operators**;
* `Block.exchange_list`: **lists of statements with branches**.
-/

namespace Codegen.Shape

variable {stackless e b : Bool} {s x q : Shape} {X Y V cs : List Shape}

/-! ## Calm siblings -/

theorem calm_cons : Calm (s :: X) ↔ s.kind.isBranch = false ∧ Calm s.parts ∧ Calm X := by
  simp only [Calm, subs_cons, List.forall_mem_cons, List.forall_mem_append]

theorem calm_nil : Calm [] := by simp [Calm]

theorem calm_iff : Calm X ↔ ∀ l ∈ labels X, l.2.isBranch = false := by
  simp [Calm, labels]

theorem Calm.rewrites {U X' : List Shape} (h : Calm X) (hr : Rewrites U V X X') (hV : Calm V) :
    Calm X' := by
  obtain ⟨ls, rs, h₁, h₂⟩ := hr.labels_eq
  rw [calm_iff] at h hV ⊢
  rw [h₁] at h
  rw [h₂]
  simp only [List.forall_mem_append] at h ⊢
  exact ⟨⟨h.1.1, hV⟩, h.2⟩

/-! ## Conditions -/

namespace Test

theorem calm (h : Test stackless q) : Calm [q] := by
  induction h with
  | literal => simp [Calm, NodeKind.isBranch]
  | comparison => simp [Calm, NodeKind.isBranch]
  | logical i ho hl hr ihl ihr =>
    have hl := (calm_cons.mp ihl)
    have hr := (calm_cons.mp ihr)
    exact calm_cons.mpr ⟨rfl, calm_cons.mpr ⟨hl.1, hl.2.1, ihr⟩, calm_nil⟩
  | atom i hk hn hcs =>
    refine calm_cons.mpr ⟨?_, hcs, calm_nil⟩
    rename_i k cs
    cases k <;> simp_all [NodeKind.isPlain, NodeKind.isBranch]
  | compared i ho hopen hc => exact calm_cons.mpr ⟨rfl, hc, calm_nil⟩

theorem holds_plain {i : NodeId} {k : NodeKind} (hk : k.isPlain = true) (hn : k.isNumber = false)
    (σ : Truth) : (node i k cs).truth σ = σ i := by
  cases k with
  | number => simp [NodeKind.isNumber] at hn
  | operator o =>
    have ho : Comparison.ofOperator? o = none ∧ o ≠ .and ∧ o ≠ .or := by
      revert hk
      cases o <;> decide
    rcases cs with _ | ⟨l, _ | ⟨r, _ | ⟨_, _⟩⟩⟩
    case cons.cons.nil =>
      cases o <;> simp_all [truth, literalOutcome?]
    all_goals simp [truth]
  | _ => simp [truth]

theorem holds_compared {i : NodeId} {o : Operator} {l r : Shape} (ho : o.isComparison = true)
    (hopen : staysOpen stackless o l.kind r.kind = true) (σ : Truth) :
    (node i (.operator o) [l, r]).truth σ = σ i := by
  have hnone : literalOutcome? o l r = none := by
    have hlr : l.kind.number? = none ∨ r.kind.number? = none := by
      cases hl : l.kind <;> cases hr : r.kind <;>
        simp_all [staysOpen, NodeKind.mayBeLiteral, NodeKind.isNumber, NodeKind.number?]
    unfold literalOutcome?
    rcases hlr with h | h <;> simp [h]
  cases o <;> simp_all [truth, Operator.isComparison, Operator.category]

/-- A comparison stays open whatever becomes of an operand that may be reduced. -/
theorem staysOpen_left {o : Operator} {k r : NodeKind} (hk : k.isReducible = true) (k' : NodeKind)
    (h : staysOpen stackless o k r = true) : staysOpen stackless o k' r = true := by
  simp only [staysOpen, NodeKind.mayBeLiteral, hk] at h ⊢
  revert h
  cases r.isNumber <;> cases r.isReducible <;> cases r.mayBeAddress <;> grind

theorem staysOpen_right {o : Operator} {k l : NodeKind} (hk : k.isReducible = true) (k' : NodeKind)
    (h : staysOpen stackless o l k = true) : staysOpen stackless o l k' = true := by
  simp only [staysOpen, NodeKind.mayBeLiteral, hk] at h ⊢
  revert h
  cases l.isNumber <;> cases l.isReducible <;> cases l.mayBeAddress <;> grind

end Test

/-! ## Operators -/

/-- **What may stand for an operator**: as a condition it holds if the operator does. -/
structure StandsFor (stackless : Bool) (x s : Shape) : Prop where
  calm : Calm [s] → Calm [x]
  test : Test stackless s → Test stackless x
  holds : Test stackless s → ∀ σ, x.truth σ = s.truth σ

theorem exists_below (hs : s ∈ subs cs) (hx : StandsFor stackless x s) (hcs : Calm cs) :
    ∃ cs', Calm cs' ∧ Rewrites [s] [x] cs cs' := by
  obtain ⟨cs', hr⟩ := exists_rewrites hs [x]
  refine ⟨cs', hcs.rewrites hr (hx.calm fun u hu => ?_), hr⟩
  rw [subs_cons, subs_nil, List.append_nil, List.mem_cons] at hu
  rcases hu with rfl | hu
  · exact hcs u hs
  · exact hcs u (subs_trans hs hu)

theorem exists_operand {l : Shape} (hs : s ∈ subs [l]) (hred : s.kind.isReducible = true)
    (hx : StandsFor stackless x s) (hl : Calm [l]) :
    ∃ l', Calm [l'] ∧ Rewrites [s] [x] [l] [l'] ∧
      (l'.kind = l.kind ∨ l.kind.isReducible = true) := by
  rw [subs_cons, subs_nil, List.append_nil, List.mem_cons] at hs
  rcases hs with rfl | hs
  · exact ⟨x, hx.calm hl, by simpa using Rewrites.here (U := [s]) (V := [x]) [] [], .inr hred⟩
  · obtain ⟨i, k, cs⟩ := l
    obtain ⟨hk, hcs, -⟩ := calm_cons.mp hl
    obtain ⟨cs', hcs', hr⟩ := exists_below hs hx hcs
    exact ⟨node i k cs', calm_cons.mpr ⟨hk, hcs', calm_nil⟩, hr.single, .inl rfl⟩

/-- **An operator in a condition may be exchanged for what stands for it.** -/
theorem Test.exchange (hq : Test stackless q) (hs : s ∈ subs [q])
    (hred : s.kind.isReducible = true) (hx : StandsFor stackless x s) :
    ∃ q', Rewrites [s] [x] [q] [q'] ∧ Test stackless q' ∧ ∀ σ, q'.truth σ = q.truth σ := by
  have here {q} (hq : Test stackless q) (hsq : s = q) :
      ∃ q', Rewrites [s] [x] [q] [q'] ∧ Test stackless q' ∧ ∀ σ, q'.truth σ = q.truth σ := by
    subst hsq
    exact ⟨x, by simpa using Rewrites.here (U := [s]) (V := [x]) [] [], hx.test hq, hx.holds hq⟩
  induction hq with
  | literal i v f => exact here (.literal i v f) (by simpa using hs)
  | comparison i ho a v f c w g =>
    simp only [subs_cons, subs_nil, List.append_nil, List.nil_append, List.mem_cons, parts_node,
      List.not_mem_nil, or_false] at hs
    rcases hs with hs | rfl | rfl
    · exact here (.comparison i ho a v f c w g) hs
    · cases hred
    · cases hred
  | @logical i o ho l r hl hr ihl ihr =>
    have hs : s = node i (.operator o) [l, r] ∨ s ∈ subs [l] ∨ s ∈ subs [r] := by
      simpa [or_assoc] using hs
    rcases hs with hs | hs | hs
    · exact here (.logical i ho hl hr) hs
    · obtain ⟨l', hrw, hl', he⟩ := ihl hs
      refine ⟨_, (hrw.head [r]).single, .logical i ho hl' hr, fun σ => ?_⟩
      cases o <;> simp_all [truth, Operator.isLogical, Operator.category]
    · obtain ⟨r', hrw, hr', he⟩ := ihr hs
      refine ⟨_, (hrw.cons l).single, .logical i ho hl hr', fun σ => ?_⟩
      cases o <;> simp_all [truth, Operator.isLogical, Operator.category]
  | @atom i k hk hn cs hcs =>
    rw [subs_cons, subs_nil, List.append_nil, List.mem_cons] at hs
    rcases hs with hs | hs
    · exact here (.atom i hk hn hcs) hs
    · obtain ⟨cs', hcs', hr⟩ := exists_below hs hx hcs
      refine ⟨node i k cs', hr.single, .atom i hk hn hcs', fun σ => ?_⟩
      rw [holds_plain hk hn, holds_plain hk hn]
  | @compared i o ho l r hopen hc =>
    have hs : s = node i (.operator o) [l, r] ∨ s ∈ subs [l] ∨ s ∈ subs [r] := by
      simpa [or_assoc] using hs
    obtain ⟨hl, hlp, hr⟩ := calm_cons.mp hc
    have hl : Calm [l] := calm_cons.mpr ⟨hl, hlp, calm_nil⟩
    rcases hs with hs | hs | hs
    · exact here (.compared i ho hopen hc) hs
    · obtain ⟨l', hl', hrw, hk⟩ := exists_operand hs hred hx hl
      have hopen' : staysOpen stackless o l'.kind r.kind = true := by
        rcases hk with hk | hk
        · rwa [hk]
        · exact staysOpen_left hk _ hopen
      have hc' : Calm [l', r] := calm_cons.mpr ⟨(calm_cons.mp hl').1, (calm_cons.mp hl').2.1, hr⟩
      refine ⟨_, (hrw.head [r]).single, .compared i ho hopen' hc', fun σ => ?_⟩
      rw [holds_compared ho hopen, holds_compared ho hopen']
    · obtain ⟨r', hr', hrw, hk⟩ := exists_operand hs hred hx hr
      have hopen' : staysOpen stackless o l.kind r'.kind = true := by
        rcases hk with hk | hk
        · rwa [hk]
        · exact staysOpen_right hk _ hopen
      have hc' : Calm [l, r'] := calm_cons.mpr ⟨(calm_cons.mp hl).1, (calm_cons.mp hl).2.1, hr'⟩
      refine ⟨_, (hrw.cons l).single, .compared i ho hopen' hc', fun σ => ?_⟩
      rw [holds_compared ho hopen, holds_compared ho hopen']

theorem Rewrites.parts {U cs' : List Shape} (h : Rewrites U V cs cs') (i : NodeId) (k : NodeKind)
    (X : List Shape) : Rewrites U V (node i k cs :: X) (node i k cs' :: X) := h.single.head X

/-- **An operator may be exchanged for what stands for it.** -/
theorem Block.exchange_operator (hX : Block stackless e b X) (hs : s ∈ subs X)
    (hred : s.kind.isReducible = true) (hx : StandsFor stackless x s) :
    ∃ X', Rewrites [s] [x] X X' ∧ Alike stackless e b X X' := by
  have plain {k : NodeKind} (hk : k.isPlain = true) : k.isReducible = false := by
    cases k <;> simp_all [NodeKind.isPlain, NodeKind.isReducible]
  induction hX with
  | nil => simp at hs
  | condition hq =>
    obtain ⟨q', hr, hq', he⟩ := hq.exchange hs hred hx
    exact ⟨[q'], hr, .condition hq hq' he⟩
  | @plain e b i k hk cs X hcs hX ih =>
    simp only [subs_cons, List.mem_cons, List.mem_append, parts_node] at hs
    rcases hs with rfl | hs | hs
    · simp [plain hk] at hred
    · obtain ⟨cs', hcs', hr⟩ := exists_below hs hx hcs
      exact ⟨_, hr.parts i k X, .plain hk hcs hcs' (.refl hX)⟩
    · obtain ⟨X', hr, ha⟩ := ih hs
      exact ⟨_, hr.cons _, .plain hk hcs hcs ha⟩
  | scope i c hcs hX ihcs ihX =>
    simp only [subs_cons, List.mem_cons, List.mem_append, parts_node] at hs
    rcases hs with rfl | hs | hs
    · cases hred
    · obtain ⟨cs', hr, ha⟩ := ihcs hs
      exact ⟨_, hr.parts i _ _, .scope ha (.refl hX)⟩
    · obtain ⟨X', hr, ha⟩ := ihX hs
      exact ⟨_, hr.cons _, .scope (.refl hcs) ha⟩
  | first i c j d m g hbefore hbody hX ihbefore ihbody ihX =>
    simp only [subs_cons, subs_nil, List.mem_cons, List.mem_append, List.append_nil,
      parts_node] at hs
    rcases hs with rfl | (rfl | hs | rfl | hs) | hs
    · cases hred
    · cases hred
    · obtain ⟨before', hr, ha⟩ := ihbefore hs
      exact ⟨_, ((hr.parts j _ _).parts i _ _), .first ha (.refl hbody) (.refl hX)⟩
    · cases hred
    · obtain ⟨body', hr, ha⟩ := ihbody hs
      exact ⟨_, ((hr.parts m _ _).cons _).parts i _ _, .first (.refl hbefore) ha (.refl hX)⟩
    · obtain ⟨X', hr, ha⟩ := ihX hs
      exact ⟨_, hr.cons _, .first (.refl hbefore) (.refl hbody) ha⟩
  | later i c j d m g hbefore hbody hX ihbefore ihbody ihX =>
    simp only [subs_cons, subs_nil, List.mem_cons, List.mem_append, List.append_nil,
      parts_node] at hs
    rcases hs with rfl | (rfl | hs | rfl | hs) | hs
    · cases hred
    · cases hred
    · obtain ⟨before', hr, ha⟩ := ihbefore hs
      exact ⟨_, ((hr.parts j _ _).parts i _ _), .later ha (.refl hbody) (.refl hX)⟩
    · cases hred
    · obtain ⟨body', hr, ha⟩ := ihbody hs
      exact ⟨_, ((hr.parts m _ _).cons _).parts i _ _, .later (.refl hbefore) ha (.refl hX)⟩
    · obtain ⟨X', hr, ha⟩ := ihX hs
      exact ⟨_, hr.cons _, .later (.refl hbefore) (.refl hbody) ha⟩
  | last i c m g hbody hX ihbody ihX =>
    simp only [subs_cons, subs_nil, List.mem_cons, List.mem_append, List.append_nil,
      parts_node] at hs
    rcases hs with rfl | (rfl | hs) | hs
    · cases hred
    · cases hred
    · obtain ⟨body', hr, ha⟩ := ihbody hs
      exact ⟨_, (hr.parts m _ _).parts i _ _, .last ha (.refl hX)⟩
    · obtain ⟨X', hr, ha⟩ := ihX hs
      exact ⟨_, hr.cons _, .last (.refl hbody) ha⟩

/-! ## Lists of statements -/

/-- The statement is in a list of statements below others, and that list may be exchanged for one
that runs the same. -/
def Exchangeable (stackless e b : Bool) (s : Shape) (X : List Shape) : Prop :=
  ∃ p ∈ subs X, s ∈ p.parts ∧ ∃ e', Block stackless e' false p.parts ∧
    ∀ L, Alike stackless e' false p.parts L →
      ∃ X', Rewrites p.parts L X X' ∧ Alike stackless e b X X'

namespace Exchangeable

variable {e' b' : Bool}

theorem lift (h : Exchangeable stackless e b s X) (hsub : subs X ⊆ subs Y)
    (hl : ∀ {U V X'}, Rewrites U V X X' → Alike stackless e b X X' →
      ∃ Y', Rewrites U V Y Y' ∧ Alike stackless e' b' Y Y') :
    Exchangeable stackless e' b' s Y := by
  obtain ⟨p, hp, hs, e'', hblock, hex⟩ := h
  refine ⟨p, hsub hp, hs, e'', hblock, fun L hL => ?_⟩
  obtain ⟨X', hr, ha⟩ := hex L hL
  exact hl hr ha

/-- The parts of a node are exchanged, or a list below them. -/
theorem enter (hcs : Block stackless e false cs)
    (h : s ∈ cs ∨ Exchangeable stackless e false s cs) {i : NodeId} {k : NodeKind}
    (hsub : node i k cs ∈ subs Y)
    (hl : ∀ {U V cs'}, (∀ Z, Rewrites U V (node i k cs :: Z) (node i k cs' :: Z)) →
      Alike stackless e false cs cs' → ∃ Y', Rewrites U V Y Y' ∧ Alike stackless e' b' Y Y') :
    Exchangeable stackless e' b' s Y := by
  rcases h with hs | h
  · refine ⟨_, hsub, hs, e, hcs, fun L hL => ?_⟩
    refine hl (fun Z => Rewrites.parts ?_ i k Z) hL
    simpa using Rewrites.here (U := cs) (V := L) [] []
  · exact h.lift (fun u hu => subs_trans hsub hu) fun hr ha => hl (fun Z => hr.parts i k Z) ha

end Exchangeable

/-- **The list of statements that a branch is in may be exchanged for one that runs the same.** -/
theorem Block.exchange_list (hX : Block stackless e b X) (hs : s ∈ subs X)
    (hk : s.kind.isBranch = true) : s ∈ X ∨ Exchangeable stackless e b s X := by
  have apart {cs : List Shape} (hcs : Calm cs) : s ∉ subs cs := fun h => by
    simp [hcs s h] at hk
  have hscope {i : NodeId} {c : ContextId} {cs : List Shape} : s ≠ node i (.scope c) cs := by
    rintro rfl
    cases hk
  -- statements behind the first one
  have behind {e b b' : Bool} {r : Shape} {X : List Shape}
      (h : s ∈ X ∨ Exchangeable stackless e b' s X)
      (hl : ∀ {X'}, Alike stackless e b' X X' → Alike stackless e b (r :: X) (r :: X')) :
      s ∈ r :: X ∨ Exchangeable stackless e b s (r :: X) := by
    rcases h with h | h
    · exact .inl (List.mem_cons_of_mem _ h)
    · refine .inr (h.lift (fun u hu => ?_) fun hr ha => ⟨_, hr.cons r, hl ha⟩)
      simp [hu]
  induction hX with
  | nil => simp at hs
  | condition hq => exact absurd hs (apart hq.calm)
  | @plain e b i k hk cs X hcs hX ih =>
    rw [subs_cons, List.mem_cons, List.mem_append] at hs
    rcases hs with rfl | hs | hs
    · exact .inl List.mem_cons_self
    · exact absurd hs (apart hcs)
    · exact behind (ih hs) (.plain hk hcs hcs)
  | scope i c hcs hX ihcs ihX =>
    rw [subs_cons, List.mem_cons, List.mem_append] at hs
    rcases hs with hs | hs | hs
    · exact absurd hs hscope
    · exact .inr (.enter hcs (ihcs hs) (by simp) fun hr ha => ⟨_, hr _, .scope ha (.refl hX)⟩)
    · exact behind (ihX hs) (.scope (.refl hcs))
  | first i c j d m g hbefore hbody hX ihbefore ihbody ihX =>
    simp only [subs_cons, subs_nil, List.mem_cons, List.mem_append, List.append_nil,
      parts_node] at hs
    rcases hs with rfl | (hs | hs | hs | hs) | hs
    · exact .inl List.mem_cons_self
    · exact absurd hs hscope
    · exact .inr (.enter hbefore (ihbefore hs) (by simp) fun hr ha =>
        ⟨_, (hr _).parts i _ _, .first ha (.refl hbody) (.refl hX)⟩)
    · exact absurd hs hscope
    · exact .inr (.enter hbody (ihbody hs) (by simp) fun hr ha =>
        ⟨_, ((hr _).cons _).parts i _ _, .first (.refl hbefore) ha (.refl hX)⟩)
    · exact behind (ihX hs) (.first (.refl hbefore) (.refl hbody))
  | later i c j d m g hbefore hbody hX ihbefore ihbody ihX =>
    simp only [subs_cons, subs_nil, List.mem_cons, List.mem_append, List.append_nil,
      parts_node] at hs
    rcases hs with rfl | (hs | hs | hs | hs) | hs
    · exact .inl List.mem_cons_self
    · exact absurd hs hscope
    · exact .inr (.enter hbefore (ihbefore hs) (by simp) fun hr ha =>
        ⟨_, (hr _).parts i _ _, .later ha (.refl hbody) (.refl hX)⟩)
    · exact absurd hs hscope
    · exact .inr (.enter hbody (ihbody hs) (by simp) fun hr ha =>
        ⟨_, ((hr _).cons _).parts i _ _, .later (.refl hbefore) ha (.refl hX)⟩)
    · exact behind (ihX hs) (.later (.refl hbefore) (.refl hbody))
  | last i c m g hbody hX ihbody ihX =>
    simp only [subs_cons, subs_nil, List.mem_cons, List.mem_append, List.append_nil,
      parts_node] at hs
    rcases hs with rfl | (hs | hs) | hs
    · exact .inl List.mem_cons_self
    · exact absurd hs hscope
    · exact .inr (.enter hbody (ihbody hs) (by simp) fun hr ha =>
        ⟨_, (hr _).parts i _ _, .last ha (.refl hX)⟩)
    · exact behind (ihX hs) (.last (.refl hbody))

end Codegen.Shape
