import Codegen.Proofs.Straight.Meaning
import Codegen.Proofs.Tree.Splice

/-!
# Sums that do not fit into a frame

Of a sum of sums the left parts are all made before the innermost sum, and each is needed until its
own sum is made. The registers hold a few of them, the others are spilled to slots of their own. So
the frame grows with the number of parts, and a sum of too many parts has none.

* `pending`: a sum of so many parts, and `exists_shows_pending`: a tree that shows it;
* `Draft.appendSum`, `lower_pending`: **all parts of it are needed at once**;
* `Sound.card_le`: the words that are needed are in registers and slots;
* `pending_crashes`: **a function that returns a sum of too many parts cannot be compiled**.
-/

namespace Codegen.Straight

open Generating Shape

variable {n j k l p : Nat} {W W' : ValueId → Word} {r r' : Routine} {σ : VariableId → Word}
variable {u v x : ValueId} {a b w : Word} {i q : NodeId} {lower : Lowering}

/-! ## The sum -/

/-- The sum of a variable plus a number, of all such sums with smaller numbers, and of the variable.
The nodes are numbered from `m` on, each behind those below it. -/
def pending (e : VariableId) (m : NodeId) : Nat → Shape
  | 0 => .node m (.reference e) []
  | k + 1 => .node (m + 4 * k + 4) (.operator .add) [
      .node (m + 2) (.operator .add) [
        .node m (.reference e) [],
        .node (m + 1) (.number (.integer (Int64.ofNat (k + 1))) .i64) []],
      pending e (m + 3) k]

theorem pending_expression {known : VariableId → Prop} (he : known e) (m : NodeId) (k : Nat) :
    Expression known (pending e m k) := by
  induction k generalizing m with
  | zero => exact .reference m he
  | succ k ih =>
    exact .operator _ rfl (.operator _ rfl (.reference m he) (.number (m + 1) _)) (ih (m + 3))

theorem length_ids_pending (e : VariableId) (m : NodeId) (k : Nat) :
    (ids [pending e m k]).length = 4 * k + 1 := by
  induction k generalizing m with
  | zero => simp [pending]
  | succ k ih =>
    have := ih (m + 3)
    simp only [pending, ids_cons, ids_nil, parts_node, List.append_nil, List.length_cons,
      List.length_append] at this ⊢
    simp only [List.length_nil]
    omega

theorem exists_plants_pending {t : Tree} {f : NodeId → List NodeId} {U : List Shape}
    (h : t.Plants f U) (e : VariableId) (k : Nat) :
    ∃ (t' : Tree) (f' : NodeId → List NodeId),
      t'.Plants f' (U ++ [pending e t.size k]) ∧ t'.size = t.size + 4 * k + 1 := by
  induction k generalizing t f U with
  | zero =>
    rw [← List.append_nil U] at h
    exact h.above (.reference e)
  | succ k ih =>
    rw [← List.append_nil U] at h
    obtain ⟨t₁, f₁, h₁, hs₁⟩ := h.above (.reference e)
    rw [← List.append_nil (U ++ _)] at h₁
    obtain ⟨t₂, f₂, h₂, hs₂⟩ := h₁.above (.number (.integer (Int64.ofNat (k + 1))) .i64)
    rw [List.append_assoc] at h₂
    obtain ⟨t₃, f₃, h₃, hs₃⟩ := h₂.above (.operator .add)
    obtain ⟨t₄, f₄, h₄, hs₄⟩ := ih h₃
    rw [List.append_assoc] at h₄
    obtain ⟨t₅, f₅, h₅, hs₅⟩ := h₄.above (.operator .add)
    refine ⟨t₅, f₅, ?_, by omega⟩
    have e₁ : t₁.size = t.size + 1 := hs₁
    have e₂ : t₂.size = t.size + 2 := by omega
    have e₃ : t₃.size = t.size + 3 := by omega
    have e₄ : t₄.size = t.size + 4 * k + 4 := by omega
    rw [e₁, e₂, e₃, e₄] at h₅
    exact h₅

theorem exists_shows_pending (e : VariableId) (c : ContextId) (k : Nat) : ∃ (t : Tree) (i : NodeId),
    t.Shows (.node (i + 1) (.scope c) [.node i .ret [pending e 0 k]]) := by
  obtain ⟨t, f, h, -⟩ := exists_plants_pending Tree.plants_empty e k
  obtain ⟨t₁, f₁, h₁, hs⟩ := Tree.Plants.above (U := []) h .ret
  obtain ⟨t₂, f₂, h₂, -⟩ := Tree.Plants.above (U := []) h₁ (.scope c)
  rw [hs] at h₂
  exact ⟨t₂, t.size, h₂.shows⟩

/-! ## Values that are no literals -/

/-- The value stands for the word, and is no literal. -/
structure Varies (n : Nat) (W : ValueId → Word) (r : Routine) (x : ValueId) (w : Word) : Prop
    extends Stands n W r x w where
  not_constant : (planOf W r.values).isConstant x = false

theorem Varies.grown (h : Varies n W r x w) (hg : Grown k W r W' r') : Varies n W' r' x w :=
  ⟨h.toStands.grown hg, (hg.plan.isConstant x h.lt_size).trans h.not_constant⟩

theorem Draft.start_lt (h : Draft n W r) (hx : Varies n W r x w) :
    ((planOf W r.values).lifetime x).start < r.instructions.size := by
  obtain ⟨c, hc, hdraft⟩ := h.exists_cell hx.lt_size
  rw [planOf_lifetime hc]
  rcases hdraft.place with hh | ⟨-, -, hlt, -⟩
  · have := hx.not_constant
    rw [planOf_isConstant hc, hh] at this
    cases this
  · exact hlt

/-- The step gave a value that is no literal. -/
def Varied (n : Nat) (W : ValueId → Word) (r : Routine) (k : Nat) (w : Word) (x : ValueId)
    (W' : ValueId → Word) (r' : Routine) : Prop :=
  Draft n W' r' ∧ Grown k W r W' r' ∧ Varies n W' r' x w ∧ r'.bindings = r.bindings

/-- **The sum of a value with one that is not zero is made by an instruction**, up to which the
first one is needed. -/
theorem Draft.appendSum (h : Draft n W r) (hu : Varies n W r u a) (hv : Stands n W r v b)
    (hb : (planOf W r.values).isConstant v = true → b ≠ 0) :
    Runs (appendArithmetic .add .i64 u v) r fun x r' => ∃ W', Varied n W r 1 (a + b) x W' r' ∧
      r'.instructions.size = r.instructions.size + 1 ∧
      (planOf W' r'.values).Needed r.instructions.size u := by
  have hd : IsDirect (.addition u v) := ⟨rfl, rfl, fun _ _ => rfl⟩
  have hps : (InstructionKind.addition u v).parameters.map (·.value) = [u, v] := rfl
  have hlt : ∀ y ∈ [u, v], y < r.values.size ∧ y ≠ n := by
    simpa using ⟨⟨hu.lt_size, hu.ne_marker⟩, hv.lt_size, hv.ne_marker⟩
  obtain ⟨x, r', hrun, W', hdraft, hg, hx, hbind⟩ := h.append hd hps hlt (a + b)
    fun K he hus hw => .addition (hus u (by simp)) (hus v (by simp)) (by
      rw [hw, he.word u hu.lt_size, he.word v hv.lt_size]
      exact congrArg₂ (· + ·) hu.word.symm hv.word.symm)
  obtain ⟨_, _, hrun', rfl, values, rfl, -⟩ := h.appended hd hps hlt (a + b)
  cases hrun.symm.trans hrun'
  have hlast : (r.instructions.push ⟨.addition u v, r.values.size,
      (InstructionKind.addition u v).parameters, []⟩)[r.instructions.size]? = some _ :=
    Array.getElem?_push_size
  obtain ⟨hfresh, hcomputes⟩ := hdraft.computes _ _ h.first hlast
  have hneeded : (planOf W' values).Needed r.instructions.size u := by
    cases hcomputes with
    | addition hu' =>
      refine hu'.2.resolve_left fun hk => ?_
      rw [hg.plan.isConstant u hu.lt_size, hu.not_constant] at hk
      cases hk
  refine .step (h.constantOf?_eq hv) ?_
  have hneutral : isNeutral .add
      (if (planOf W r.values).isConstant v = true then some (.integer b) else none) = false := by
    split
    next hk => simpa [isNeutral] using hb hk
    next => rfl
  have hzero : isAnnihilating .add
      (if (planOf W r.values).isConstant v = true then some (.integer b) else none) = false := by
    split <;> rfl
  simp only [hneutral, hzero, Bool.and_false, Bool.false_eq_true, if_false]
  exact .of_eq hrun
    ⟨W', ⟨hdraft, hg, ⟨hx, hfresh.not_constant⟩, hbind⟩, Array.size_push .., hneeded⟩

theorem lowerNode_sum {Q : Option ValueId → Routine → Prop}
    (hk : r.tree.kind i = .operator .add)
    (h : Runs (lowerArithmetic lower i .add) r fun x r' => Q (some x) r') :
    Runs (lowerNode lower i) r Q := by
  unfold lowerNode
  refine .step (g := get) (a := r) rfl ?_
  rw [hk]
  exact .map h

/-- A sum of two nodes, the second of which is not zero. -/
theorem lowerSum_spec {l q : NodeId} {E : Routine → (ValueId → Word) → Routine → Prop}
    (hc : operandsOf i r = .ok (l, q) r) (hformat : r.tree.formatOf r.symbols i = .ok .i64)
    (hl : Runs (lower l) r fun y r' => ∃ u W', y = some u ∧ Varied n W r j a u W' r')
    (hq : ∀ u W₁ r₁, Varied n W r j a u W₁ r₁ → Runs (lower q) r₁ fun y r' => ∃ v W',
      y = some v ∧ Draft n W' r' ∧ Grown k W₁ r₁ W' r' ∧ Stands n W' r' v b ∧
        r'.bindings = r₁.bindings ∧
        ((planOf W' r'.values).isConstant v = true → b ≠ 0) ∧ E r₁ W' r') :
    Runs (lowerArithmetic lower i .add) r fun x r' => ∃ W',
      Varied n W r (j + k + 1) (a + b) x W' r' ∧ ∃ u W₁ r₁ W₂ r₂,
        Varied n W r j a u W₁ r₁ ∧ E r₁ W₂ r₂ ∧ Grown k W₁ r₁ W₂ r₂ ∧ Grown 1 W₂ r₂ W' r' ∧
        r'.instructions.size = r₂.instructions.size + 1 ∧
        (planOf W' r'.values).Needed r₂.instructions.size u := by
  unfold lowerArithmetic
  refine .step hc (.step (ask_eq hformat) ?_)
  refine .bind (Q := fun u r' => ∃ W', Varied n W r j a u W' r') ?_ ?_
  · unfold valueOfNode
    refine .bind hl ?_
    rintro _ r₁ ⟨u, W₁, rfl, h₁⟩
    exact .pure ⟨W₁, h₁⟩
  rintro u r₁ ⟨W₁, h₁⟩
  have hq := hq u W₁ r₁ h₁
  obtain ⟨hd₁, hg₁, hu, hb₁⟩ := h₁
  unfold valueOfNode
  rw [bind_assoc]
  refine .bind hq ?_
  rintro _ r₂ ⟨v, W₂, rfl, h₂, hg₂, hv, hb₂, hzero, hE⟩
  have hu₂ := hu.grown hg₂
  refine .step (g := pure v) (a := v) rfl ?_
  refine .step (h₂.constantOf?_eq hu₂.toStands) (.step (h₂.constantOf?_eq hv) ?_)
  rw [if_neg (by simp [hu₂.not_constant])]
  refine (h₂.appendSum hu₂ hv hzero).mono ?_
  rintro x r₃ ⟨W₃, ⟨h₃, hg₃, hx, hb₃⟩, hsize, hneeded⟩
  exact ⟨W₃, ⟨h₃, (hg₁.trans hg₂).trans hg₃, hx, hb₃.trans (hb₂.trans hb₁)⟩, u, W₁, r₁, W₂, r₂,
    ⟨hd₁, hg₁, hu, hb₁⟩, hE, hg₂, hg₃, hsize, hneeded⟩


/-! ## All parts at once -/

theorem ofNat_inj_of_lt {i j : Nat} (hi : i < 2 ^ 64) (hj : j < 2 ^ 64)
    (h : Int64.ofNat i = Int64.ofNat j) : i = j := by
  have h : i % 2 ^ 64 = j % 2 ^ 64 := by simpa using congrArg (·.toBitVec.toNat) h
  rwa [Nat.mod_eq_of_lt hi, Nat.mod_eq_of_lt hj] at h

/-- **So many words behind a word are needed** at a position. -/
def Crowded (W : ValueId → Word) (r : Routine) (p : Nat) (w : Word) (k : Nat) : Prop :=
  ∀ j < k, ∃ v, (planOf W r.values).Needed p v ∧ W v = w + Int64.ofNat (j + 1)

theorem Crowded.extend (h : Crowded W r p w k)
    (hp : (planOf W r.values).Extends (planOf W' r'.values)) : Crowded W' r' p w k := fun j hj => by
  obtain ⟨v, hv, hw⟩ := h j hj
  exact ⟨v, hp.needed hv, (hp.word v hv.lt_size).trans hw⟩

section Pending

variable {t : Tree} {f : NodeId → List NodeId} {symbols : SymbolTable} {e : VariableId} {m : NodeId}

theorem lowerNode_varied (hk : r.tree.kind i = .reference e) (h : Draft n W r)
    (hx : r.bindings.lookup e = some x) (hv : Varies n W r x w) :
    Runs (lowerNode lower i) r fun y r' => ∃ u W', y = some u ∧ Varied n W r 0 w u W' r' := by
  unfold lowerNode
  refine .step (g := get) (a := r) rfl ?_
  rw [hk]
  refine .map ?_
  unfold valueOf bound?
  refine .step (a := some x) ?_ (.pure ⟨x, W, rfl, h, .refl W r, hv, rfl⟩)
  rw [bind_of_ok (g := get) (a := r) rfl, hx]
  rfl

/-- **All parts of a sum are needed at once**, before the innermost sum is made. -/
theorem lower_pending (hf : t.Forest f) (hd : t.Displays f [pending e m k])
    (hholds : HoldsWord symbols e) (hw : HasWords symbols) {fuel : Nat} (hfuel : 4 * k + 1 ≤ fuel)
    (hk : k < 2 ^ 64) (ht : r.tree = t) (hs : r.symbols = symbols) (h : Draft n W r)
    (hx : r.bindings.lookup e = some x) (hv : Varies n W r x (σ e)) :
    Runs (lowerWithin fuel (pending e m k).id) r fun y r' => ∃ z W', y = some z ∧
      Varied n W r (4 * k + 1) ((pending e m k).word σ) z W' r' ∧
      ∃ p, r.instructions.size ≤ p ∧ p ≤ r'.instructions.size ∧ Crowded W' r' p (σ e) k := by
  have hknown : ∀ v, v = e → HoldsWord symbols v := fun v hv => hv ▸ hholds
  induction k generalizing m r W fuel with
  | zero =>
    obtain ⟨⟨hk, -⟩, -⟩ := Tree.Displays.cons.mp hd
    obtain ⟨fuel, rfl⟩ : ∃ k, fuel = k + 1 := ⟨fuel - 1, by omega⟩
    refine (lowerNode_varied (by rw [ht]; exact hk) h hx hv).mono ?_
    rintro _ r' ⟨z, W', rfl, h', hg, hv, hb⟩
    refine ⟨z, W', rfl, ⟨h', hg.relax (by omega), hv, hb⟩, r.instructions.size, Nat.le_refl _, ?_,
      fun j hj => absurd hj (Nat.not_lt_zero j)⟩
    exact hg.le_size
  | succ k ih =>
    have hsum : Expression (· = e) (.node (m + 2) (.operator .add) [.node m (.reference e) [],
        .node (m + 1) (.number (.integer (Int64.ofNat (k + 1))) .i64) []]) :=
      .operator _ rfl (.reference m rfl) (.number (m + 1) _)
    have hpending : Expression (fun v => v = e) (pending e m (k + 1)) :=
      pending_expression (by rfl) m (k + 1)
    have hformat := hpending.formatOf_eq hf hd hknown hw
    obtain ⟨⟨hki, hci⟩, hparts, -⟩ := Tree.Displays.cons.mp hd
    obtain ⟨hdl, hdr⟩ := Tree.Displays.append.mp (show t.Displays f ([_] ++ [_]) from hparts)
    have hformatl := hsum.formatOf_eq hf hdl hknown hw
    obtain ⟨⟨hkl, hcl⟩, hpl, -⟩ := Tree.Displays.cons.mp hdl
    obtain ⟨⟨hka, -⟩, -, hdn⟩ := Tree.Displays.cons.mp hpl
    obtain ⟨⟨hkn, -⟩, -⟩ := Tree.Displays.cons.mp hdn
    obtain ⟨fuel, rfl⟩ : ∃ k, fuel = k + 3 := ⟨fuel - 3, by omega⟩
    have hpart : Int64.ofNat (k + 1) ≠ 0 := fun hz =>
      absurd (ofNat_inj_of_lt hk (by decide) hz) (Nat.succ_ne_zero k)
    -- the first operand
    have hleft : Runs (lowerWithin (fuel + 2) (m + 2)) r fun y r' => ∃ u W',
        y = some u ∧ Varied n W r 1 (σ e + Int64.ofNat (k + 1)) u W' r' := by
      refine lowerNode_sum (by rw [ht]; exact hkl) ?_
      refine (lowerSum_spec (n := n) (W := W) (a := σ e) (b := Int64.ofNat (k + 1)) (j := 0)
        (k := 0) (E := fun _ _ _ => True) (operandsOf_eq ht hf hcl)
        (by rw [ht, hs]; exact hformatl) (lowerNode_varied (by rw [ht]; exact hka) h hx hv)
        fun u W₁ r₁ ⟨h₁, hg₁, _, _⟩ => ?_).mono ?_
      · refine (lowerNode_number (by rw [hg₁.routine, ht]; exact hkn) h₁).mono ?_
        rintro _ r₂ ⟨v, rfl, W₂, h₂, hg₂, hv₂, hb₂⟩
        exact ⟨v, W₂, rfl, h₂, hg₂, hv₂, hb₂, fun _ => hpart, trivial⟩
      · rintro u r₁ ⟨W₁, h₁, -⟩
        exact ⟨u, W₁, rfl, h₁⟩
    refine lowerNode_sum (by rw [ht]; exact hki) ?_
    refine (lowerSum_spec (n := n) (W := W) (b := (pending e (m + 3) k).word σ) (k := 4 * k + 1)
      (E := fun r₁ W' r' => ∃ p, r₁.instructions.size ≤ p ∧ p ≤ r'.instructions.size ∧
        Crowded W' r' p (σ e) k) (operandsOf_eq ht hf hci) (by rw [ht, hs]; exact hformat) hleft
      fun _ W₁ r₁ ⟨h₁, hg₁, _, hb₁⟩ => ?_).mono ?_
    · refine (ih hdr (by omega) (by omega) (by rw [hg₁.routine]; exact ht)
        (by rw [hg₁.routine]; exact hs) h₁ (by rw [hb₁, hx]) (hv.grown hg₁)).mono ?_
      rintro _ r₂ ⟨v, W₂, rfl, ⟨h₂, hg₂, hv₂, hb₂⟩, hcrowded⟩
      refine ⟨v, W₂, rfl, h₂, hg₂, hv₂.toStands, hb₂, fun hk => ?_, hcrowded⟩
      rw [hv₂.not_constant] at hk
      cases hk
    · rintro z r₃ ⟨W₃, ⟨h₃, hg, hz, hb⟩, u, W₁, r₁, W₂, r₂, ⟨h₁, hg₁, hu, -⟩,
        ⟨p, hp, hp', hcrowded⟩, hg₂, hg₃, hsize, hneeded⟩
      have hu₃ := (hu.grown hg₂).grown hg₃
      refine ⟨z, W₃, rfl, ⟨h₃, hg.relax (by omega), hz, hb⟩, p, Nat.le_trans hg₁.le_size hp,
        Nat.le_trans hp' hg₃.le_size, fun j hj => ?_⟩
      rcases Nat.lt_succ_iff_lt_or_eq.mp hj with hj | rfl
      · exact hcrowded.extend hg₃.plan j hj
      · refine ⟨u, { hneeded with start_lt := ?_, le_stop := ?_ }, hu₃.word⟩
        · rw [(hg₂.plan.trans hg₃.plan).start u hu.lt_size hu.not_constant]
          exact Int.lt_of_lt_of_le (h₁.start_lt hu) (by exact_mod_cast hp)
        · exact Int.le_trans (by exact_mod_cast hp') hneeded.le_stop

end Pending

/-! ## Slots -/

theorem Sound.card_le {m : Machine} {K : Plan} {live : ValueId → Prop} {s : Machine.State}
    (h : Sound m K live n r s) {ws : Finset Word} (hws : ∀ w ∈ ws, ∃ v, live v ∧ K.word v = w) :
    ws.card ≤ 32 + r.temporaries := by
  have hsubset : ws ⊆ (Finset.range 32).image (fun i => s.registers ⟨0, i⟩) ∪
      (Finset.range r.temporaries).image fun k => s.slots (.temporary k) := by
    intro w hw
    obtain ⟨v, hv, rfl⟩ := hws w hw
    rw [Finset.mem_union, Finset.mem_image, Finset.mem_image]
    obtain ⟨q, -, hrange, howner, hword⟩ | ⟨k, z, -, hk, hword⟩ := h.homes v hv
    · obtain ⟨bank, id⟩ := q
      obtain ⟨rfl, hid, -⟩ := (h.owners _ v hrange howner).2
      exact .inl ⟨id, Finset.mem_range.mpr hid, hword⟩
    · exact .inr ⟨k, Finset.mem_range.mpr hk, hword⟩
  calc ws.card ≤ _ := Finset.card_le_card hsubset
    _ ≤ _ := Finset.card_union_le ..
    _ ≤ 32 + r.temporaries := Nat.add_le_add
      (Finset.card_image_le.trans (Finset.card_range 32).le)
      (Finset.card_image_le.trans (Finset.card_range _).le)

/-- So many words behind a word are so many words. -/
theorem Crowded.le_temporaries {m : Machine} {s : Machine.State} {r₁ : Routine}
    (h : Crowded W r p w k) (hk : k < 2 ^ 64)
    (hs : Sound m (planOf W r.values) ((planOf W r.values).Needed p) n r₁ s) :
    k ≤ 32 + r₁.temporaries := by
  have hinj : Set.InjOn (fun j => w + Int64.ofNat (j + 1)) (Finset.range k) := by
    intro i hi j hj hij
    rw [Finset.coe_range, Set.mem_Iio] at hi hj
    have hword := ofNat_inj_of_lt (by omega) (by omega) ((Int64.add_right_inj w).mp hij)
    omega
  have hneeded (u : Word) (hu : u ∈ (Finset.range k).image fun j => w + Int64.ofNat (j + 1)) :
      ∃ v, (planOf W r.values).Needed p v ∧ W v = u := by
    obtain ⟨j, hj, rfl⟩ := Finset.mem_image.mp hu
    exact h j (Finset.mem_range.mp hj)
  have hcard := hs.card_le hneeded
  rwa [Finset.card_image_of_injOn hinj, Finset.card_range] at hcard

theorem le_roomOf_of_spills {ops : List Operation} {m : Nat} (h : Spills ops 0 m)
    (instructions : List Instruction) (rest : List Operation) :
    8 * m ≤ Frame.roomOf instructions (Frame.mentioned (ops ++ rest)) := by
  have hsubset : (List.range m).map SlotKey.temporary ⊆ Frame.mentioned (ops ++ rest) := by
    intro k hk
    obtain ⟨i, hi, rfl⟩ := List.mem_map.mp hk
    obtain ⟨q, hq⟩ := h i (Nat.zero_le i) (List.mem_range.mp hi)
    exact Frame.mem_mentioned (List.mem_append_left _ hq) List.mem_cons_self rfl
  have hnodup : ((List.range m).map SlotKey.temporary).Nodup :=
    List.nodup_range.map fun i j hij => by injection hij
  calc 8 * m = ∑ _k ∈ ((List.range m).map SlotKey.temporary).toFinset, 8 := by
        rw [Finset.sum_const, List.toFinset_card_of_nodup hnodup, List.length_map,
          List.length_range, smul_eq_mul, Nat.mul_comm]
    _ ≤ Frame.roomOf instructions ((List.range m).map SlotKey.temporary) :=
      Finset.sum_le_sum fun k _ => Frame.word_le_slotRoom instructions k
    _ ≤ _ := Frame.roomOf_mono hsubset

/-! ## Functions without room -/

section Functions

variable {config : Config} {symbols : SymbolTable} {source : Codegen.Source} {info : FunctionInfo}
variable {c : ContextId} {e : VariableId} {m : NodeId} {start built : Routine} {name : String}
variable {t : Tree} {f : NodeId → List NodeId}

/-- The function is drafted to its end, and so many words are needed before an instruction of it. -/
def EndsCrowded (n : Nat) (W : ValueId → Word) (r : Routine) (l : Nat) (w a : Word) (k : Nat)
    (r' : Routine) : Prop :=
  ∃ W', Complete n W' w r' ∧ Grown l W r W' r' ∧
    ∃ p, r.instructions.size ≤ p ∧ p < r'.instructions.size ∧ Crowded W' r' p a k

/-- The return of a sum of many parts. -/
theorem lowerStatements_pending (hf : t.Forest f) (hd : t.Displays f [.node i .ret [pending e m k]])
    (hholds : HoldsWord symbols e) (hw : HasWords symbols) {fuel : Nat} (hfuel : 4 * k + 2 ≤ fuel)
    (hk : k < 2 ^ 64) (ht : r.tree = t) (hs : r.symbols = symbols)
    (hr : ReturnsWord symbols r.function) (h : Draft n W r) (hx : r.bindings.lookup e = some x)
    (hv : Varies n W r x (σ e)) :
    Runs (lowerStatements (lowerWithin fuel) none [i]) r fun _ r' =>
      EndsCrowded n W r (4 * k + 2) ((pending e m k).word σ) (σ e) k r' := by
  obtain ⟨⟨hki, hci⟩, hp, -⟩ := Tree.Displays.cons.mp hd
  obtain ⟨fuel, rfl⟩ : ∃ l, fuel = l + 1 := ⟨fuel - 1, by omega⟩
  have hkind : r.tree.kind i = .ret := by rw [ht]; exact hki
  have hfirst : r.tree.first? i = some (pending e m k).id := by
    rw [ht, hf.first, show f i = [(pending e m k).id] from hci]
    rfl
  have hsum : Runs (lowerWithin fuel (pending e m k).id) r fun y r' => ∃ z W', y = some z ∧
      Draft n W' r' ∧ Grown (4 * k + 1) W r W' r' ∧ Stands n W' r' z ((pending e m k).word σ) ∧
      ∃ p, r.instructions.size ≤ p ∧ p ≤ r'.instructions.size ∧ Crowded W' r' p (σ e) k := by
    refine (lower_pending hf hp hholds hw (by omega) hk ht hs h hx hv).mono ?_
    rintro _ r' ⟨z, W', rfl, ⟨h', hg, hz, -⟩, hcrowded⟩
    exact ⟨z, W', rfl, h', hg, hz.toStands, hcrowded⟩
  refine lowerStatements_single (by rw [hkind]; rfl) ?_
  rw [lowerWithin]
  unfold lowerNode
  refine .step (g := get) (a := r) rfl ?_
  rw [hkind]
  refine .bind (lowerReturn_spec hfirst hr hw hs hsum) ?_
  rintro - r' ⟨W', hcomplete, hg, W₁, r₁, ⟨p, hp, hp', hcrowded⟩, hg', hsize⟩
  exact .pure ⟨W', hcomplete, hg, p, hp, by omega, hcrowded.extend hg'.plan⟩

section Source

variable (h : IsStraight symbols source.function info [.node i .ret [pending e m k]])
  (he : e ∈ info.parameters)
  (hbody : source.tree.Shows (.node source.body (.scope c) [.node i .ret [pending e m k]]))
  (hk : k < 2 ^ 64)
  (hlen : info.parameters.length ≤ config.architecture.target.parameters.length)
include h he hbody hk hlen

/-- The draft of the function needs all parts of its sum at once. -/
theorem lowers_pending (hstart : Untouched config symbols source start) (σ : VariableId → Word) :
    Runs (lowerFunction source.body) start fun _ r' => ∃ W,
      Complete info.parameters.length W ((pending e m k).word σ) r' ∧
      (∀ x < info.parameters.length, W x = incoming σ info.parameters x) ∧
      r' = { start with
        values := r'.values, instructions := r'.instructions, bindings := r'.bindings } ∧
      ∃ p, 1 ≤ p ∧ p < r'.instructions.size ∧ Crowded W r' p (σ e) k := by
  obtain ⟨f, hf, hd⟩ := hbody.displays
  obtain ⟨-, hret, -⟩ := Tree.Displays.cons.mp hd
  have hsize : 4 * k + 3 ≤ start.tree.size := by
    have hcount := Tree.length_ids_le hbody.nodup fun _ => hbody.lt_size
    have hlength := length_ids_pending e m k
    simp only [ids_cons, ids_nil, parts_node, List.append_nil, List.length_cons] at hcount hlength
    rw [hstart.tree]
    omega
  refine (lowerFunction_of_body (σ := σ) (w := (pending e m k).word σ) (k := 4 * k + 2)
    (E := fun W r' => ∃ p, 1 ≤ p ∧ p < r'.instructions.size ∧ Crowded W r' p (σ e) k)
    (by rw [hstart.function]; exact h) hstart.symbols (by rw [hstart.tree]; exact hbody)
    (by rw [Routine.target, Routine.architecture, hstart.config]; exact hlen)
    hstart.instructions hstart.values hstart.bindings fun r₁ h₁ hb₁ hvalues hr₁ => ?_).mono ?_
  · -- the parameter is no literal
    obtain ⟨x, hx, hstands⟩ := hb₁ e he
    have hlt : x < info.parameters.length :=
      Nat.lt_of_le_of_ne (Nat.le_of_lt_succ (Nat.lt_of_lt_of_eq hstands.lt_size hvalues))
        hstands.ne_marker
    have hreturns : ReturnsWord symbols r₁.function := by
      rw [hr₁]
      exact ⟨info, by rw [hstart.function]; exact h.found, h.returns⟩
    refine (lowerStatements_pending hf hret (h.parameters e he) h.words (by omega) hk
      (by rw [hr₁]; exact hstart.tree) (by rw [hr₁]; exact hstart.symbols) hreturns h₁ hx
      ⟨hstands, (h₁.parameters x hlt).not_constant⟩).mono ?_
    rintro - r' ⟨W, hcomplete, hg, p, hp, hp', hcrowded⟩
    exact ⟨W, hcomplete, hg, p, Nat.le_trans h₁.first hp, hp', hcrowded⟩
  · rintro - r' ⟨W, hcomplete, hW, -, hroutine, hcrowded⟩
    exact ⟨W, hcomplete, hW, hroutine, hcrowded⟩

/-- **The slots of the parts of a sum take room**, but for as many parts as there are registers. -/
theorem le_roomOf_of_pending (hbuilt : source.BuildsTo config symbols built) :
    8 * (k - 32) ≤ Frame.roomOf built.instructions.toList (Frame.mentioned built.body) := by
  obtain ⟨start, lowered, hstart, hlower, hbuild⟩ := hbuilt
  have hstart := untouched_of_start hstart
  obtain ⟨m, σ, s, hm, hs⟩ := exists_passes config.architecture info.parameters
  obtain ⟨⟨⟩, r, hr, W, hcomplete, hW, hroutine, p, hp, hp', hcrowded⟩ :=
    lowers_pending h he hbody hk hlen hstart σ
  cases hlower.symm.trans hr
  have hconfig : lowered.config = config.withThreads false := by rw [hroutine, hstart.config]
  have hwords (x : Nat) (q : Register)
      (hx : (x, q) ∈ (List.range info.parameters.length).zip m.architecture.target.parameters) :
      s.registers q = W x := by
    obtain ⟨hlt, hword⟩ := registers_of_passes hs hx
    rw [hword, hW x hlt]
  obtain ⟨⟨⟩, r, hr, hfinished⟩ := hcomplete.build_spec (by rw [hconfig, hm]; rfl)
    (by rw [hroutine, hm]; exact hstart.registers) (by rw [hroutine]; exact hstart.temporaries)
    (by rw [hroutine]; exact hstart.operations) (by rw [hroutine]; exact hstart.unbuilt)
    (by rwa [hm]) hwords
  cases hbuild.symm.trans hr
  obtain ⟨r₁, s₁, hreached, hle⟩ := hfinished.reached p hp (by rwa [Array.length_toList])
  obtain ⟨ops, -, hbody, -, -, hspills, -⟩ := hfinished.built.body
  have hcount := hcrowded.le_temporaries hk hreached.sound
  change k ≤ 32 + r₁.temporaries at hcount
  have hroom := le_roomOf_of_spills hspills built.instructions.toList [⟨.ret, []⟩]
  rw [← hbody] at hroom
  exact Nat.le_trans (Nat.mul_le_mul_left 8 (by omega)) hroom

variable (source) in
/-- **A function that returns a sum with too many parts has no frame.** -/
theorem pending_crashes (hname : symbols.symbol source.function = .ok name)
    (hlarge : 0x20000020 ≤ k) (binary : Bool) (session : Session) :
    ∃ c session', Compiling.function config binary symbols source session =
      .error (.crash c) session' := by
  obtain ⟨built, hbuilt, hconfig, -⟩ := exists_buildsTo h hbody hname hlen
  refine crashes_of_not_hasRoom hbuilt (fun hroom => ?_) binary session
  have hle := le_roomOf_of_pending h he hbody hk hlen hbuilt
  unfold Frame.HasRoom at hroom
  omega

end Source

/-- **What else a compilation can fail with**: there is no machine code for arm64, and a sum of more
than half a milliard parts has no frame. -/
theorem scaling_faults : ∃ (symbols : SymbolTable) (function : FunctionId) (info : FunctionInfo),
    info.parameters = [0, 1] ∧
    (∃ tree body parts, IsStraight symbols function info parts ∧
      tree.Shows (.node body (.scope 1) parts) ∧
      ∃ session, Compiling.function ⟨.arm64, false, false⟩ true symbols ⟨function, tree, body⟩
        Session.empty = .error (.report (.unsupported .binaryOutput .arm64)) session) ∧
    ∃ tree body i, IsStraight symbols function info [.node i .ret [pending 0 0 0x20000020]] ∧
      tree.Shows (.node body (.scope 1) [.node i .ret [pending 0 0 0x20000020]]) ∧
      ∀ config binary session, ∃ c session', Compiling.function config binary symbols
        ⟨function, tree, body⟩ session = .error (.crash c) session' := by
  obtain ⟨l, -, hl⟩ := (Option.any_eq_true _ _).mp scaling_checked
  obtain ⟨b, -, hb⟩ := List.any_eq_true.mp hl
  simp only [Bool.and_eq_true, beq_iff_eq] at hb
  obtain ⟨⟨⟨⟨⟨⟨⟨hstraight, hparameters⟩, hshown⟩, hkind⟩, hsymbol⟩, -⟩, -⟩, hcode⟩ := hb
  obtain ⟨info, hstraight⟩ := straight_of_isStraight hstraight
  have hparameters : info.parameters = [0, 1] := by
    simpa [hstraight.found, Except.toOption] using hparameters
  have hsymbol : l.symbols.symbol b.function = .ok "_V5scalexx_rx" := by
    cases h : l.symbols.symbol b.function <;> simp_all [Except.toOption]
  refine ⟨l.symbols, b.function, info, hparameters, ⟨b.tree, b.body, _, hstraight,
    hkind ▸ Tree.shows_of_isShown hshown, ?_⟩, ?_⟩
  · split at hcode
    next => cases hcode
    next e session he => exact ⟨session, beq_iff_eq.mp hcode ▸ he⟩
  · obtain ⟨t, i, ht⟩ := exists_shows_pending 0 1 0x20000020
    have hlarge : IsStraight l.symbols b.function info [.node i .ret [pending 0 0 0x20000020]] :=
      { hstraight with body := .ret i (pending_expression (by simp [hparameters]) 0 _) }
    refine ⟨t, i + 1, i, hlarge, ht, fun config binary session => ?_⟩
    have hlength : info.parameters.length ≤ config.architecture.target.parameters.length := by
      rw [hparameters]
      cases config.architecture <;> decide
    exact pending_crashes ⟨b.function, t, i + 1⟩ hlarge (by simp [hparameters]) ht (by norm_num)
      hlength hsymbol (Nat.le_refl _) binary session

end Functions

end Codegen.Straight
