import Codegen.Proofs.Evaluation.Exchange

/-!
# Chains with a decided branch

A branch whose condition is a literal alone is always or never taken once it is tried. The chain then
runs the same without it.

* `Block.append`, `Block.past`: lists behind lists, and what is behind a chain;
* `Alike.behind`: statements ahead of lists that run the same;
* `Alike.take_first`, `take_later`: **a branch that is always taken**;
* `Alike.drop_first`, `drop_alone`, `drop_later`, ...: **a branch that is never taken**.
-/

namespace Codegen.Shape

variable {stackless e b decided : Bool} {σ : Truth} {X Y as : List Shape} {s : Shape}

namespace Block

/-! ## Parts of branches -/

section Parts

variable {i : NodeId} {c : ContextId} {cs : List Shape}

theorem ifBranch_parts (h : Block stackless e b (node i (.ifBranch c) cs :: X)) :
    ∃ j d m g before body, cs = [node j (.scope d) before, node m (.scope g) body] ∧
      Block stackless true false before ∧ Block stackless false false body ∧
        Block stackless e true X := by
  cases h with
  | condition hq => cases (calm_cons.mp hq.calm).1
  | plain i hk => cases hk
  | first i c j d m g hbefore hbody hX => exact ⟨j, d, m, g, _, _, rfl, hbefore, hbody, hX⟩

theorem elseIf_parts (h : Block stackless e b (node i (.elseIf c) cs :: X)) :
    b = true ∧ ∃ j d m g before body, cs = [node j (.scope d) before, node m (.scope g) body] ∧
      Block stackless true false before ∧ Block stackless false false body ∧
        Block stackless e true X := by
  cases h with
  | condition hq => cases (calm_cons.mp hq.calm).1
  | plain i hk => cases hk
  | later i c j d m g hbefore hbody hX => exact ⟨rfl, j, d, m, g, _, _, rfl, hbefore, hbody, hX⟩

theorem otherwise_parts (h : Block stackless e b (node i (.otherwise c) cs :: X)) :
    b = true ∧ ∃ m g body, cs = [node m (.scope g) body] ∧
      Block stackless false false body ∧ Block stackless e false X := by
  cases h with
  | condition hq => cases (calm_cons.mp hq.calm).1
  | plain i hk => cases hk
  | last i c m g hbody hX => exact ⟨rfl, m, g, _, rfl, hbody, hX⟩

theorem ends (h : Block stackless true b X) : ∃ before q, X = before ++ [q] ∧ Test stackless q := by
  generalize he : true = e at h
  have cons {s : Shape} {X : List Shape} (h : ∃ before q, X = before ++ [q] ∧ Test stackless q) :
      ∃ before q, s :: X = before ++ [q] ∧ Test stackless q := by
    obtain ⟨before, q, rfl, hq⟩ := h
    exact ⟨s :: before, q, rfl, hq⟩
  induction h with
  | nil => cases he
  | condition hq => exact ⟨[], _, rfl, hq⟩
  | plain _ _ _ _ ih => exact cons (ih he)
  | scope _ _ _ _ _ ih => exact cons (ih he)
  | first _ _ _ _ _ _ _ _ _ _ _ ih => exact cons (ih he)
  | later _ _ _ _ _ _ _ _ _ _ _ ih => exact cons (ih he)
  | last _ _ _ _ _ _ _ ih => exact cons (ih he)

end Parts

/-! ## Lists behind lists -/

theorem append_nonempty (h : Block stackless e false Y) (as : List Shape) (he : e = true) :
    as ++ Y ≠ [] := by
  simp [h.ne_nil_of he]

theorem append (hX : Block stackless false b X) (hY : Block stackless e false Y) :
    Block stackless e b (X ++ Y) := by
  generalize he : false = e' at hX
  induction hX with
  | nil => exact hY.weaken _
  | condition => cases he
  | plain i hk hcs _ ih => exact .plain i hk hcs (ih he)
  | scope i c hcs _ _ ih => exact .scope i c hcs (ih he)
  | first i c j d m g hbefore hbody _ _ _ ih => exact .first i c j d m g hbefore hbody (ih he)
  | later i c j d m g hbefore hbody _ _ _ ih => exact .later i c j d m g hbefore hbody (ih he)
  | last i c m g hbody _ _ ih => exact .last i c m g hbody (ih he)

theorem trace_append (hX : Block stackless false b X) (hY : Block stackless e false Y) :
    trace σ e decided (X ++ Y) =
      ((trace σ false decided X).1 ++ (trace σ e false Y).1, (trace σ e false Y).2) := by
  generalize he : false = e' at hX
  induction hX generalizing decided with
  | nil =>
    have hY' : trace σ e decided Y = trace σ e false Y := hY.trace_eq
    simp [hY']
  | condition => cases he
  | _ =>
    subst he
    rename_i ih
    rw [List.cons_append, trace_cons (hY.append_nonempty _), ih rfl, trace_cons (by simp)]
    simp

/-- Nothing but an alternative continues a chain. -/
theorem fresh (h : Block stackless e b X) (hX : ∀ s ∈ X.head?, s.kind.isAlternative = false) :
    Block stackless e false X := by
  cases h with
  | nil => exact .nil
  | condition hq => exact .condition hq
  | plain i hk hcs h => exact .plain i hk hcs h
  | scope i c hcs h => exact .scope i c hcs h
  | first i c j d m g hbefore hbody h => exact .first i c j d m g hbefore hbody h
  | later => simp [NodeKind.isAlternative] at hX
  | last => simp [NodeKind.isAlternative] at hX

theorem head_alternative (h : Block stackless e false X) :
    ∀ s ∈ X.head?, s.kind.isAlternative = false := by
  cases h with
  | nil => simp
  | condition hq =>
    have := (calm_cons.mp hq.calm).1
    rename_i q
    cases hk : q.kind <;> simp_all [NodeKind.isBranch, NodeKind.isAlternative]
  | @plain i _ _ k hk cs X hcs h =>
    cases k <;> simp_all [NodeKind.isPlain, NodeKind.isBranch, NodeKind.isAlternative]
  | scope => simp [NodeKind.isAlternative]
  | first => simp [NodeKind.isAlternative]

/-- **What is behind a chain runs if the chain is decided.** -/
theorem past (h : Block stackless e true X) {k : NodeKind} (hk : k.isConditional = true) :
    ∃ Y, X = followers k X ++ Y ∧ Block stackless e false Y ∧
      ∀ σ, trace σ e true X = trace σ e false Y := by
  have behind {e b X k} (h : Block stackless e false X) :
      ∃ Y, X = followers k X ++ Y ∧ Block stackless e false Y ∧
        ∀ σ, trace σ e b X = trace σ e false Y := by
    refine ⟨X, ?_, h, fun σ => h.trace_eq⟩
    have halt := h.head_alternative
    cases X <;> simp_all [followers]
  generalize hb : true = b at h ⊢
  induction h generalizing k with
  | nil => exact behind .nil
  | condition hq => exact behind (.condition hq)
  | plain i hp hcs h => exact behind (.plain i hp hcs h)
  | scope i c hcs h => exact behind (.scope i c hcs h)
  | first i c j d m g hbefore hbody h => exact behind (.first i c j d m g hbefore hbody h)
  | later i c j d m g hbefore hbody h _ _ ih =>
    obtain ⟨Y, hX, hY, hrun⟩ := ih (k := .elseIf c) rfl rfl
    refine ⟨Y, ?_, hY, fun σ => ?_⟩
    · rw [followers, hk]
      simpa [NodeKind.isAlternative] using hX
    · rw [trace_cons h.ne_nil_of, ← hrun]
      simp
  | last i c m g hbody h =>
    obtain ⟨Y, hX, hY, hrun⟩ := behind h (b := false) (k := .otherwise c)
    refine ⟨Y, ?_, hY, fun σ => ?_⟩
    · rw [followers, hk]
      simpa [NodeKind.isAlternative] using hX
    · rw [trace_cons h.ne_nil_of, ← hrun]
      simp

end Block

namespace Alike

variable {n : Shape}

/-- **Statements ahead of lists that run the same.** The list goes on a chain only behind one of its
branches. -/
theorem behind (h : Block stackless e b (as ++ s :: X)) :
    ∃ b', Block stackless e b' (s :: X) ∧
      (b' = true → (∃ p ∈ as.getLast?, p.kind.isConditional = true) ∨ as = [] ∧ b = true) ∧
      ∀ Y, Alike stackless e b' (s :: X) Y → Alike stackless e b (as ++ s :: X) (as ++ Y) := by
  induction as generalizing b with
  | nil => exact ⟨b, h, fun hb => .inr ⟨rfl, hb⟩, fun _ hY => hY⟩
  | cons a as ih =>
    -- the first statement runs, then the rest
    have step {b₁ : Bool} (hrest : Block stackless e b₁ (as ++ s :: X))
        (hlast : b₁ = true → a.kind.isConditional = true)
        (hcons : ∀ {Y}, Alike stackless e b₁ (as ++ s :: X) Y →
          Alike stackless e b (a :: (as ++ s :: X)) (a :: Y)) :
        ∃ b', Block stackless e b' (s :: X) ∧
          (b' = true → (∃ p ∈ (a :: as).getLast?, p.kind.isConditional = true) ∨
            a :: as = [] ∧ b = true) ∧
          ∀ Y, Alike stackless e b' (s :: X) Y →
            Alike stackless e b (a :: as ++ s :: X) (a :: as ++ Y) := by
      obtain ⟨b', hs, hb, hY⟩ := ih hrest
      refine ⟨b', hs, fun hb' => .inl ?_, fun Y ha => hcons (hY Y ha)⟩
      rcases hb hb' with ⟨p, hp, hk⟩ | ⟨rfl, rfl⟩
      · exact ⟨p, by rw [List.getLast?_cons]; simp_all, hk⟩
      · exact ⟨a, by simp, hlast rfl⟩
    rw [List.cons_append] at h
    obtain ⟨Z, hZ⟩ : ∃ Z, Z = as ++ s :: X := ⟨_, rfl⟩
    rw [← hZ] at h
    cases h with
    | condition => simp at hZ
    | plain i hk hcs hX => exact step (hZ ▸ hX) (by simp) (.plain hk hcs hcs)
    | scope i c hcs hX => exact step (hZ ▸ hX) (by simp) (.scope (.refl hcs))
    | first i c j d m g hbefore hbody hX =>
      exact step (hZ ▸ hX) (fun _ => rfl) (.first (.refl hbefore) (.refl hbody))
    | later i c j d m g hbefore hbody hX =>
      exact step (hZ ▸ hX) (fun _ => rfl) (.later (.refl hbefore) (.refl hbody))
    | last i c m g hbody hX => exact step (hZ ▸ hX) (by simp) (.last (.refl hbody))

/-! ## Decided branches -/

section Branches

variable {i j m q i' m' : NodeId} {c d g c' g' : ContextId} {v : Number} {f : Format}
variable {body body' cs : List Shape}

/-- The first branch of a chain, always taken, leaves its statements. -/
theorem take_first
    (h : Block stackless e b (node i (.ifBranch c)
      [node j (.scope d) [node q (.number v f) []], node m (.scope g) body] :: X))
    (hv : v.isZero = false) :
    ∃ Y, X = followers (.ifBranch c) X ++ Y ∧ Alike stackless e b (node i (.ifBranch c)
      [node j (.scope d) [node q (.number v f) []], node m (.scope g) body] :: X) (body ++ Y) := by
  obtain ⟨_, _, _, _, _, _, ⟨rfl⟩, -, hbody, hX⟩ := h.ifBranch_parts
  obtain ⟨Y, hfs, hY, hrun⟩ := hX.past (k := .ifBranch c) rfl
  refine ⟨Y, hfs, h, (hbody.weaken b).append hY, fun σ decided => ?_⟩
  rw [trace_cons hX.ne_nil_of, (hbody.weaken b).trace_append hY, hbody.trace_eq]
  simp [trace_condition, tried, truth, hv, hrun]

/-- A later branch, always taken, becomes the last one. -/
theorem take_later
    (h : Block stackless e b (node i (.elseIf c)
      [node j (.scope d) [node q (.number v f) []], node m (.scope g) body] :: X))
    (hv : v.isZero = false) :
    ∃ Y, X = followers (.elseIf c) X ++ Y ∧ Alike stackless e b (node i (.elseIf c)
      [node j (.scope d) [node q (.number v f) []], node m (.scope g) body] :: X)
      (node i (.otherwise c) [node m (.scope g) body] :: Y) := by
  obtain ⟨rfl, _, _, _, _, _, _, ⟨rfl⟩, -, hbody, hX⟩ := h.elseIf_parts
  obtain ⟨Y, hfs, hY, hrun⟩ := hX.past (k := .elseIf c) rfl
  refine ⟨Y, hfs, h, .last i c m g hbody hY, fun σ decided => ?_⟩
  rw [trace_cons hX.ne_nil_of, trace_cons hY.ne_nil_of]
  cases decided <;> simp [trace_condition, tried, truth, hv, hrun]

/-- The first branch of a chain, never taken, leaves the chain to the branch after it. -/
theorem drop_first
    (h : Block stackless e b (node i (.ifBranch c)
      [node j (.scope d) [node q (.number v f) []], node m (.scope g) body] ::
        node i' (.elseIf c') cs :: X)) (hv : v.isZero = true) :
    Alike stackless e b (node i (.ifBranch c)
      [node j (.scope d) [node q (.number v f) []], node m (.scope g) body] ::
        node i' (.elseIf c') cs :: X) (node i' (.ifBranch c') cs :: X) := by
  obtain ⟨_, _, _, _, _, _, -, -, -, hX⟩ := h.ifBranch_parts
  obtain ⟨-, j', d', m', g', before', body', rfl, hbefore', hbody', hX⟩ := hX.elseIf_parts
  refine ⟨h, .first i' c' j' d' m' g' hbefore' hbody' hX, fun σ decided => ?_⟩
  rw [trace_cons hX.ne_nil_of, trace_cons (by simp), trace_cons hX.ne_nil_of]
  simp [trace_condition, tried, truth, hv]

/-- The first branch of a chain, never taken, leaves the statements of the last one. -/
theorem drop_first_last
    (h : Block stackless e b (node i (.ifBranch c)
      [node j (.scope d) [node q (.number v f) []], node m (.scope g) body] ::
        node i' (.otherwise c') [node m' (.scope g') body'] :: X)) (hv : v.isZero = true) :
    Alike stackless e b (node i (.ifBranch c)
      [node j (.scope d) [node q (.number v f) []], node m (.scope g) body] ::
        node i' (.otherwise c') [node m' (.scope g') body'] :: X) (body' ++ X) := by
  obtain ⟨_, _, _, _, _, _, -, -, -, hX⟩ := h.ifBranch_parts
  obtain ⟨-, _, _, _, ⟨rfl⟩, hbody', hX⟩ := hX.otherwise_parts
  refine ⟨h, (hbody'.weaken b).append hX, fun σ decided => ?_⟩
  rw [(hbody'.weaken b).trace_append hX, hbody'.trace_eq, trace_cons (by simp), trace_cons hX.ne_nil_of]
  simp [trace_condition, tried, truth, hv]

/-- A branch alone, never taken, leaves nothing. -/
theorem drop_alone
    (h : Block stackless e b (node i (.ifBranch c)
      [node j (.scope d) [node q (.number v f) []], node m (.scope g) body] :: X))
    (hv : v.isZero = true) (halone : ∀ s ∈ X.head?, s.kind.isAlternative = false) :
    Alike stackless e b (node i (.ifBranch c)
      [node j (.scope d) [node q (.number v f) []], node m (.scope g) body] :: X) X := by
  obtain ⟨_, _, _, _, _, _, -, -, -, hX⟩ := h.ifBranch_parts
  have hX := hX.fresh halone
  refine ⟨h, hX.weaken b, fun σ decided => ?_⟩
  rw [trace_cons hX.ne_nil_of, hX.trace_eq]
  simp [trace_condition, tried, truth, hv]

/-- A later branch, never taken, leaves the chain to the branches around it. -/
theorem drop_later
    (h : Block stackless e b (node i (.elseIf c)
      [node j (.scope d) [node q (.number v f) []], node m (.scope g) body] :: X))
    (hv : v.isZero = true) :
    Alike stackless e b (node i (.elseIf c)
      [node j (.scope d) [node q (.number v f) []], node m (.scope g) body] :: X) X := by
  obtain ⟨rfl, _, _, _, _, _, _, -, -, -, hX⟩ := h.elseIf_parts
  refine ⟨h, hX, fun σ decided => ?_⟩
  rw [trace_cons hX.ne_nil_of]
  cases decided <;> simp [trace_condition, tried, truth, hv]

end Branches

end Alike

end Codegen.Shape
