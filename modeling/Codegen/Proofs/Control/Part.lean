import Codegen.Proofs.Control.Follow
import Codegen.Proofs.Tree.Read

/-!
# Parts that do what they should

The statements that leave or restart a loop are inside its rounds: not in its initialization and not
ahead of its test, where there is no round yet. In such a body the instructions of parts do what the
parts do.

* `Shape.isConfined`: control statements are inside rounds;
* `Shape.Formed`, `Shape.formed_of_isFormed`: **a well-formed body**, and a test of it;
* `Aimed`: where the control statements of a part lead;
* `Performs`: **a lowering of parts whose instructions do what the parts do**, and whose values
  denote them;
* `Bracketed.performed`: what is done between brackets.
-/

namespace Codegen.Shape

mutual

/-- Are all control statements inside a round of their loop? The part itself may be inside one. -/
def isConfined (inRound : Bool) : Shape → Bool
  | node _ (.control _) _ => inRound
  | node _ (.loop _ true) cs => areConfined true cs
  | node _ (.loop _ false) (a :: c :: cs) =>
    a.isConfined false && c.isConfined false && areConfined true cs
  | node _ _ cs => areConfined inRound cs

/-- Are all control statements inside a round of their loop, in each of some parts? -/
def areConfined (inRound : Bool) : List Shape → Bool
  | [] => true
  | c :: cs => c.isConfined inRound && areConfined inRound cs

end

/-- **A well-formed body.** Control statements are inside rounds, conditions are in scopes and are
no branches, and a parenthesis in a condition has one part. -/
structure Formed (W : Shape) : Prop where
  confined : W.isConfined false = true
  scope : ∀ {path : List Shape} {c : Shape}, In W .scope path c → ∃ k, c.kind = .scope k
  condition : ∀ {path : List Shape} {q : Shape}, In W .condition path q →
    q.kind.isAlternative = false
  single : ∀ {path : List Shape} {p : Shape}, In W .condition path p → p.kind = .parenthesis →
    ∃ m, p.parts = [m]

theorem Formed.tidy {W : Shape} (h : W.Formed) : W.Tidy := by
  intro pl path c hc ha
  cases pl with
  | plain => rfl
  | scope =>
    obtain ⟨k, hk⟩ := h.scope hc
    simp [hk, NodeKind.isAlternative] at ha
  | condition => simp [h.condition hc] at ha

variable {s c : Shape} {inRound : Bool} {cs : List Shape}

theorem areConfined_iff :
    areConfined inRound cs = true ↔ ∀ c ∈ cs, c.isConfined inRound = true := by
  induction cs with
  | nil => simp [areConfined]
  | cons c cs ih => simp [areConfined, ih]

theorem isConfined_part (h : s.isConfined inRound = true) (hl : s.kind.isLoop = false)
    (hk : ∀ control, s.kind ≠ .control control) (hc : c ∈ s.parts) :
    c.isConfined inRound = true := by
  rcases s with ⟨i, k, cs⟩
  cases k <;> simp_all [isConfined, areConfined_iff, kind, parts, NodeKind.isLoop]

theorem isConfined_forever {x : ContextId} (h : s.isConfined inRound = true)
    (hk : s.kind = .loop x true) (hc : c ∈ s.parts) : c.isConfined true = true := by
  rcases s with ⟨i, k, cs⟩
  obtain rfl : k = .loop x true := hk
  rw [isConfined, areConfined_iff] at h
  exact h c hc

/-- The action and the body of another loop are inside its rounds, its initialization and what is
ahead of its test are inside none. -/
theorem isConfined_pretested {x : ContextId} {a : Shape} (h : s.isConfined inRound = true)
    (hk : s.kind = .loop x false) (hp : s.parts = a :: c :: cs) :
    a.isConfined false = true ∧ c.isConfined false = true ∧
      ∀ b ∈ cs, b.isConfined true = true := by
  rcases s with ⟨i, k, ps⟩
  obtain rfl : k = .loop x false := hk
  obtain rfl : ps = a :: c :: cs := hp
  simpa [isConfined, areConfined_iff, and_assoc] using h

/-- Is a part what it should be at its place? -/
def isFormedAt : Place → Shape → Bool
  | .plain, _ => true
  | .scope, s => match s.kind with
    | .scope _ => true
    | _ => false
  | .condition, s => !s.kind.isAlternative && (s.kind != .parenthesis || s.parts.length == 1)

/-- Is the body well-formed? -/
def isFormed (fuel : Nat) (W : Shape) : Bool := W.isConfined false && all isFormedAt fuel .plain W

theorem formed_of_isFormed {W : Shape} {fuel : Nat} (h : W.isFormed fuel = true) : W.Formed := by
  obtain ⟨hconfined, hall⟩ := Bool.and_eq_true_iff.mp h
  have at_condition {path q} (hq : W.In .condition path q) :
      q.kind.isAlternative = false ∧ (q.kind = .parenthesis → q.parts.length = 1) := by
    have h := of_all hall hq
    simp only [isFormedAt, Bool.and_eq_true, Bool.not_eq_true', Bool.or_eq_true, bne_iff_ne,
      beq_iff_eq] at h
    exact ⟨h.1, fun hk => h.2.resolve_left fun hne => hne hk⟩
  refine ⟨hconfined, fun hc => ?_, fun hq => (at_condition hq).1, fun hq hk =>
    List.length_eq_one_iff.mp ((at_condition hq).2 hk)⟩
  have h := of_all hall hc
  simp only [isFormedAt] at h
  split at h
  next k hk => exact ⟨k, hk⟩
  next => cases h

end Codegen.Shape

/-! ## Parts -/

namespace Codegen

open Generating Shape

variable {o : Oracle} {R : Routine} {t : Tree} {symbols : SymbolTable} {W s : Shape}
variable {targets : Option (LoopControl → Label)} {path path' ss : List Shape} {n : Nat}
variable {r r' r₁ : Routine} {sub : PartLowering} {x y : ValueId} {x? : Option ValueId}

/-- Control statements lead to the labels of the innermost loop around them, and the routine names
leaders only. -/
structure Aimed (targets : Option (LoopControl → Label)) (path : List Shape) (r : Routine) :
    Prop where
  led : r.Led
  target : ∀ f, targets = some f → ∃ loop record, path.find? (·.kind.isLoop) = some loop ∧
    r.loops.lookup loop.id = some record ∧ record.target = f

theorem Aimed.none (hr : r.Led) : Aimed none path r := ⟨hr, fun _ h => nomatch h⟩

theorem Aimed.push (h : Aimed targets path r) (hs : s.kind.isLoop = false) :
    Aimed targets (s :: path) r := by
  refine ⟨h.led, fun f hf => ?_⟩
  obtain ⟨loop, record, hl, h⟩ := h.target f hf
  exact ⟨loop, record, by simp [hs, hl], h⟩

theorem Aimed.grown (h : Aimed targets path r) (hg : Grown path r r') : Aimed targets path r' := by
  refine ⟨hg.led, fun f hf => ?_⟩
  obtain ⟨loop, record, hl, hr, h⟩ := h.target f hf
  exact ⟨loop, record, hl, (hg.loops loop (List.mem_of_find?_eq_some hl)).trans hr, h⟩

theorem Aimed.silent (h : Aimed targets path r) (hs : Silent r r') : Aimed targets path r' :=
  h.grown hs.grown

/-- Parts at plain places, whose control statements lead where they should. -/
def Shape.Placed (W : Shape) (targets : Option (LoopControl → Label)) (path cs : List Shape) :
    Prop :=
  ∀ c ∈ cs, W.In .plain path c ∧ c.isConfined targets.isSome = true

namespace Shape.Placed

variable {cs : List Shape}

theorem nil : Placed W targets path [] := fun _ h => nomatch h

theorem head (h : Placed W targets path (s :: cs)) :
    W.In .plain path s ∧ s.isConfined targets.isSome = true := h s List.mem_cons_self

theorem tail (h : Placed W targets path (s :: cs)) : Placed W targets path cs :=
  fun b hb => h b (List.mem_cons_of_mem _ hb)

theorem followers {k : NodeKind} (h : Placed W targets path cs) :
    Placed W targets path (followers k cs) :=
  fun b hb => h b ((followers_sublist k cs).subset hb)

end Shape.Placed

/-- **The instructions of parts do what the parts do**, and their values denote them. -/
structure Performs (o : Oracle) (R : Routine) (t : Tree) (symbols : SymbolTable) (W : Shape)
    (sub : PartLowering) : Prop where
  part : ∀ {pl path s ss r x? r' targets}, W.In pl path s → s.Valued pl →
    (x? = none → pl = .plain) → s.isConfined targets.isSome = true →
    W.Placed targets path (followers s.kind ss) → Aimed targets path r → sub path s ss r x? r' →
    ∀ n, Performed o R symbols targets path n (s.run o t symbols ss n) r r' ∧
      ∀ x ∈ x?, Gives R symbols s r' x

section

variable (hsub : Performs o R t symbols W sub)
include hsub

/-- A statement, which need not have a value. -/
theorem Performs.statement (hs : W.In .plain path s ∧ s.isConfined targets.isSome = true)
    (hss : W.Placed targets path (followers s.kind ss)) (ha : Aimed targets path r)
    (h : sub path s ss r x? r') :
    Performed o R symbols targets path n (run o t symbols s ss n) r r' ∧
      ∀ x ∈ x?, Gives R symbols s r' x :=
  hsub.part hs.1 (.inl rfl) (fun _ => rfl) hs.2 hss ha h n

theorem Performs.operand (hs : W.In .plain path s ∧ s.isConfined targets.isSome = true)
    (ha : Aimed targets path r) (h : sub path s [] r (some x) r') :
    Performed o R symbols targets path n (runOperand o t symbols (some s) n) r r' ∧
      Gives R symbols s r' x := by
  rw [runOperand]
  obtain ⟨e, hx⟩ := hsub.statement (n := n) hs .nil ha h
  exact ⟨e, hx x rfl⟩

/-- The first and the last part, as operands. -/
theorem Performs.operands {l m : Shape} {cs : List Shape} (hin : W.Placed targets path cs)
    (hl : cs.head? = some l) (hm : cs.getLast? = some m) (ha : Aimed targets path r)
    (h₁ : sub path l [] r (some x) r₁) (h₂ : sub path m [] r₁ (some y) r') :
    Performed o R symbols targets path n (do
      runOperand o t symbols (some l) n
      runOperand o t symbols (some m) n) r r' ∧
      Gives R symbols l r' x ∧ Gives R symbols m r' y := by
  obtain ⟨e₁, hx⟩ := hsub.operand (n := n) (hin l (List.mem_of_mem_head? hl)) ha h₁
  obtain ⟨e₂, hy⟩ := hsub.operand (n := n) (hin m (List.mem_of_getLast? hm)) (ha.grown e₁.grown) h₂
  exact ⟨e₁.bind e₂, hx.before e₂.grown.before, hy⟩

end

theorem Generating.Bracketed.performed {α : Type} {m : Exec α} {step : Routine → Routine → Prop}
    (h : Bracketed step r r') (hr : r.Led)
    (hstep : ∀ {q q'}, Silent r q → step q q' →
      Performed o R symbols targets path n m q q') :
    Performed o R symbols targets path n m r r' := by
  obtain ⟨save, r₁, enter, r₂, r₃, i, r₄, j, h₁, h₂, hs, h₃, h₄⟩ := h
  have e₁ : Silent r r₁ := .plain h₁ hr rfl rfl
  have e₂ : Silent r r₂ := e₁.trans <| .marker h₂ e₁.led
    (observed_leads fun b hb => e₁.onward.leader _ (hr.bindings b hb)) rfl
  have e₂ : Silent r { r₂ with regions := ⟨r.bindings, some enter⟩ :: r₂.regions } :=
    e₂.trans (.context e₂.led _ _ _)
  have e₃ := hstep e₂ hs
  have o₃ : Onward r.values r₃ := e₂.onward.trans e₃.grown.before.onward
  have e₄ : Silent r₃ { r₃ with regions := r₃.regions.tail } := .context o₃.led _ _ _
  have hpairs := pairsOf_leads o₃.led fun b hb => o₃.leader _ (hr.bindings b hb)
  have e₅ : Silent r₃ r₄ := e₄.trans (.marker h₃ e₄.led hpairs rfl)
  have e₆ : Silent r₄ { r₄ with bindings := r.bindings } :=
    .rebind e₅.led hr (o₃.trans e₅.onward)
  have e₇ := e₆.trans (.plain h₄ e₆.led rfl rfl)
  exact (e₃.behind e₂).ahead (e₅.trans e₇)

end Codegen
