import Codegen.Proofs.Straight.Build
import Codegen.Proofs.Value.Arena
import Codegen.Routine.Append

/-!
# Drafts of straight-line code

Before the build a function is a draft: a stream of instructions, and values without places but for
the literals. Appending an instruction lets the lifetimes of its operands grow up to it and leaves
all else as it is, so what was known of earlier instructions stays true.

* `Arena.Continues`: an arena in which values were made and used;
* `planOf`: **the plan that an arena is**, and `Plan.Extends`: plans that keep what others say;
* `Draft`: **the invariant of the lowering**;
* `append_spec`, `Draft.append`, `Draft.literal`: what is appended keeps it.
-/

namespace Codegen

/-! ## Uses -/

theorem Lifetime.extend_extend (l : Lifetime) (p : Int) : (l.extend p).extend p = l.extend p := by
  grind [extend]

namespace Arena

variable {a b c : Arena} {u v : ValueId} {x : Cell} {us vs : List ValueId} {p : Int}

/-- Some values were used at a position, and nothing else has changed. -/
structure Used (a : Arena) (vs : List ValueId) (p : Int) (b : Arena) : Prop where
  size : b.size = a.size
  cell : ∀ u, b.cell? u = (a.cell? u).map fun x =>
    if u ∈ vs then { x with lifetime := x.lifetime.extend p } else x

theorem Used.nil : a.Used [] p a := ⟨rfl, fun u => by simp⟩

theorem Used.append (h : a.Used us p b) (h' : b.Used vs p c) : a.Used (us ++ vs) p c where
  size := h'.size.trans h.size
  cell u := by
    rw [h'.cell, h.cell, Option.map_map]
    congr 1
    funext x
    by_cases hu : u ∈ us <;> by_cases hv : u ∈ vs <;>
      simp [hu, hv, Lifetime.extend_extend]

theorem useAt_used (h : a.cell? v = some x) (he : x.edges = []) (hi : x.handle.inner = []) :
    ∃ b, a.useAt v p = .ok b ∧ a.Used [v] p b := by
  have hv := cell?_lt h
  have hb (u : ValueId) := cell?_modify (a := a) (v := v)
    (fun x => { x with lifetime := x.lifetime.extend p }) u
  refine ⟨⟨a.cells.modify v fun x => { x with lifetime := x.lifetime.extend p }⟩, ?_, ?_, ?_⟩
  · have hc := hb v
    rw [h] at hc
    simp only [if_true, Option.map_some] at hc
    rw [useAt, show 3 * a.size + 4 = 3 * a.size + 2 + 1 + 1 from rfl]
    simp only [useAll, update, hv, if_true, Arena.cell, hc, Fault.expect, hi,
      receivers_eq_nil hc (by exact he), updateAll, List.foldlM_nil, bind, Except.bind, pure,
      Except.pure]
  · simp [size]
  · intro u
    rw [hb u]
    simp

/-- Values were made, and earlier ones may have been used at a position. -/
structure Continues (a : Arena) (p : Int) (b : Arena) : Prop where
  size : a.size ≤ b.size
  cell : ∀ v x, a.cell? v = some x → ∃ y, b.cell? v = some y ∧ y.format = x.format ∧
    y.edges = x.edges ∧ y.handle = x.handle ∧
    (y.lifetime = x.lifetime ∨ y.lifetime = x.lifetime.extend p)

/-- A value that nothing was done with. -/
def fresh (h : Handle) (f : Format) : Cell :=
  ⟨h, f, ⟨[], h.isConstant, false⟩, .unused, none, []⟩

theorem cell?_create (h : Handle) (f : Format) :
    (a.create h f).2.cell? v = if v = a.size then some (fresh h f) else a.cell? v := by
  simp only [create, cell?, size, Array.getElem?_push]
  rfl

theorem setMetadata_eq (h : a.cell? v = some x) (he : x.edges = []) (m : Metadata) :
    a.setMetadata v m false = .ok ⟨a.cells.modify v fun x => { x with metadata := m }⟩ := by
  simp only [setMetadata, audience, receivers_eq_nil h he, Bool.false_eq_true, if_false, updateAll,
    List.foldlM_cons, List.foldlM_nil, update, cell?_lt h, if_true]
  rfl

/-- The value that an instruction makes, before anything is used. -/
theorem made_spec (a : Arena) (p : Nat) : ∃ b c,
    (a.create .none .i64).2.setMetadata a.size ⟨[], false, false⟩ false = .ok b ∧
      b.setInstruction a.size p = .ok c ∧ c.size = a.size + 1 ∧
      ∀ v, c.cell? v = if v = a.size then some { fresh .none .i64 with instruction? := some p }
        else a.cell? v := by
  have hnew := cell?_create (a := a) (v := a.size) .none .i64
  rw [if_pos rfl] at hnew
  refine ⟨_, _, setMetadata_eq hnew rfl _, if_pos (by simp [size, create]), ?_, fun v => ?_⟩
  · simp [size, create]
  · rw [cell?_modify, cell?_modify, cell?_create]
    by_cases hv : v = a.size
    · simp [hv, fresh, Handle.isConstant]
    · cases a.cell? v <;> simp [hv]

/-- Between two arenas that continue one another, a value is in both or only in the second. -/
theorem Continues.cases {y : Cell} (h : a.Continues p b) (hy : b.cell? v = some y) :
    a.size ≤ v ∨ ∃ x, a.cell? v = some x ∧ y.format = x.format ∧ y.edges = x.edges ∧
      y.handle = x.handle ∧ (y.lifetime = x.lifetime ∨ y.lifetime = x.lifetime.extend p) := by
  by_cases hv : v < a.size
  · obtain ⟨x, hx⟩ := exists_cell hv
    obtain ⟨z, hz, hrest⟩ := h.cell v x hx
    obtain rfl := Option.some.inj (hz.symm.trans hy)
    exact .inr ⟨x, hx, hrest⟩
  · exact .inl (Nat.le_of_not_lt hv)

end Arena

/-! ## Appended instructions -/

namespace Generating

variable {r r' : Routine} {kind : InstructionKind} {p : Nat}

theorem Runs.map {α β : Type} {g : Generating α} {f : α → β} {Q : β → Routine → Prop}
    (h : Runs g r fun a r' => Q (f a) r') : Runs (f <$> g) r Q := by
  rw [map_eq_pure_bind]
  exact .bind h fun _ _ hq => .pure hq

/-- Uses of values that are alone. -/
theorem uses_spec {ps : List Parameter} (hps : ∀ q ∈ ps, ∃ x, r.values.cell? q.value = some x ∧
      x.edges = [] ∧ x.handle.inner = []) :
    Runs (ps.forM fun q => useAt q.value p) r fun _ r' => ∃ values,
      r' = { r with values } ∧ r.values.Used (ps.map (·.value)) p values := by
  induction ps generalizing r with
  | nil => exact .pure ⟨r.values, rfl, .nil⟩
  | cons q ps ih =>
    obtain ⟨x, hx, he, hi⟩ := hps q List.mem_cons_self
    obtain ⟨b, hb, hused⟩ := Arena.useAt_used (p := p) hx he hi
    have hstep : useAt q.value p r = .ok () { r with values := b } := changeValues_eq hb
    refine .step hstep ((ih fun q' hq' => ?_).mono ?_)
    · obtain ⟨y, hy, he', hi'⟩ := hps q' (List.mem_cons_of_mem _ hq')
      refine ⟨_, by rw [hused.cell, hy]; rfl, ?_, ?_⟩
      · split <;> exact he'
      · split <;> exact hi'
    · rintro - _ ⟨values, rfl, hrest⟩
      exact ⟨values, rfl, hused.append hrest⟩

theorem bind_eq {x : ValueId} {c : Cell} (hc : r.values.cell? x = some c) (he : c.edges = [])
    (v : VariableId) : ∃ m, bind v x r = .ok () { r with
      values := ⟨r.values.cells.modify x fun c => { c with metadata := m }⟩,
      bindings := Binding.put v x r.bindings } := by
  refine ⟨⟨if c.metadata.vars.contains v then c.metadata.vars else c.metadata.vars ++ [v],
    c.metadata.constant, c.metadata.complex⟩, ?_⟩
  have hattach : attach x v r = .ok () _ :=
    (bind_of_ok (cellOf_eq hc)).trans (changeValues_eq (Arena.setMetadata_eq hc he _))
  unfold bind
  rw [bind_of_ok hattach]
  rfl

/-- The result of the instruction has no place yet and is not joined with a parameter. -/
structure IsDirect (kind : InstructionKind) : Prop where
  handle : kind.initialHandle = .none
  metadata : kind.initialMetadata = ⟨[], false, false⟩
  joins : ∀ x r, joinResult x kind r = .ok () r

/-- **An appended instruction** makes a value and uses its parameters. -/
theorem append_spec (hk : IsDirect kind)
    (hps : ∀ q ∈ kind.parameters, ∃ x, r.values.cell? q.value = some x ∧ x.edges = [] ∧
      x.handle.inner = []) :
    Runs (append kind .i64) r fun x r' => x = r.values.size ∧ ∃ values,
      r' = { r with
        values, instructions := r.instructions.push ⟨kind, x, kind.parameters, []⟩ } ∧
      values.size = r.values.size + 1 ∧
      values.cell? x = some
        ⟨.none, .i64, ⟨[], false, false⟩, ⟨r.instructions.size, r.instructions.size⟩,
          some r.instructions.size, []⟩ ∧
      ∀ v < r.values.size, values.cell? v = (r.values.cell? v).map fun c =>
        if v ∈ kind.parameters.map (·.value) then
          { c with lifetime := c.lifetime.extend r.instructions.size } else c := by
  obtain ⟨b, c, hmeta, hmade, hsize, hcell⟩ := Arena.made_spec r.values r.instructions.size
  have hold {q : Parameter} (hq : q ∈ kind.parameters) : q.value ≠ r.values.size := by
    obtain ⟨x, hx, -⟩ := hps q hq
    exact Nat.ne_of_lt (Arena.cell?_lt hx)
  unfold append
  rw [hk.handle, hk.metadata]
  refine .step (a := r) rfl (.step (a := r.values.size) rfl ?_)
  refine .step (changeValues_eq hmeta) (.step (changeValues_eq hmade) ?_)
  refine .bind (uses_spec fun q hq => ?_) ?_
  · rw [hcell, if_neg (hold hq)]
    exact hps q hq
  · rintro - _ ⟨d, rfl, hd⟩
    have hnew : d.cell? r.values.size = some
        { Arena.fresh .none .i64 with instruction? := some r.instructions.size } := by
      rw [hd.cell, hcell, if_pos rfl, Option.map_some, if_neg]
      intro hmem
      obtain ⟨q, hq, he⟩ := List.mem_map.mp hmem
      exact hold hq he
    obtain ⟨values, hvalues, hused⟩ := Arena.useAt_used (p := r.instructions.size) hnew rfl rfl
    refine .step (changeValues_eq hvalues) (.step (hk.joins _ _) (.step (a := ()) rfl (.pure ⟨rfl, values,
      rfl, hused.size.trans (hd.size.trans hsize), ?_, fun v hv => ?_⟩)))
    · rw [hused.cell, hnew]
      simp [Arena.fresh, Lifetime.extend, Lifetime.unused, Handle.isConstant]
    · rw [hused.cell, hd.cell, hcell, if_neg (Nat.ne_of_lt hv), Option.map_map]
      congr 1
      funext x
      simp [Nat.ne_of_lt hv]

end Generating

/-! ## Plans -/

namespace Straight

/-- What an arena tells of its values, given the words that they stand for. -/
def planOf (W : ValueId → Word) (a : Arena) : Plan where
  size := a.size
  word := W
  isConstant v := (a.handleAt v).isConstant
  lifetime v := (a.cell? v).elim .unused (·.lifetime)

variable {K K' K'' : Plan} {W W' : ValueId → Word} {a b : Arena} {u v x : ValueId} {c : Cell}
variable {p q : Nat} {kind : InstructionKind}

theorem planOf_lifetime (h : a.cell? v = some c) : (planOf W a).lifetime v = c.lifetime := by
  simp [planOf, h]

theorem planOf_isConstant (h : a.cell? v = some c) :
    (planOf W a).isConstant v = c.handle.isConstant := by
  simp [planOf, Arena.handleAt_eq h]

theorem planOf_metadata (m : Metadata) :
    planOf W ⟨a.cells.modify x fun c => { c with metadata := m }⟩ = planOf W a := by
  have hcell (v : ValueId) := Arena.cell?_modify (a := a) (v := x)
    (fun c => { c with metadata := m }) v
  simp only [planOf, Arena.size, Array.size_modify, Arena.handleAt, hcell, Plan.mk.injEq, true_and]
  constructor <;> funext v <;> cases a.cell? v <;> simp only [Option.map_none, Option.map_some] <;>
    split <;> rfl

/-- A plan for more values, which tells the same of the earlier ones but for later uses. -/
structure Plan.Extends (K K' : Plan) : Prop where
  size : K.size ≤ K'.size
  word : ∀ v < K.size, K'.word v = K.word v
  isConstant : ∀ v < K.size, K'.isConstant v = K.isConstant v
  start : ∀ v < K.size, K.isConstant v = false → (K'.lifetime v).start = (K.lifetime v).start
  stop : ∀ v < K.size, K.isConstant v = false → (K.lifetime v).stop ≤ (K'.lifetime v).stop

namespace Plan.Extends

theorem refl (K : Plan) : K.Extends K :=
  ⟨Nat.le_refl _, fun _ _ => rfl, fun _ _ => rfl, fun _ _ _ => rfl, fun _ _ _ => Int.le_refl _⟩

theorem trans (h : K.Extends K') (h' : K'.Extends K'') : K.Extends K'' where
  size := Nat.le_trans h.size h'.size
  word v hv := (h'.word v (Nat.lt_of_lt_of_le hv h.size)).trans (h.word v hv)
  isConstant v hv := (h'.isConstant v (Nat.lt_of_lt_of_le hv h.size)).trans (h.isConstant v hv)
  start v hv hc := (h'.start v (Nat.lt_of_lt_of_le hv h.size)
    ((h.isConstant v hv).trans hc)).trans (h.start v hv hc)
  stop v hv hc := Int.le_trans (h.stop v hv hc)
    (h'.stop v (Nat.lt_of_lt_of_le hv h.size) ((h.isConstant v hv).trans hc))

theorem needed (h : K.Extends K') (hn : K.Needed p v) : K'.Needed p v where
  lt_size := Nat.lt_of_lt_of_le hn.lt_size h.size
  not_constant := (h.isConstant v hn.lt_size).trans hn.not_constant
  start_nonneg := by
    rw [h.start v hn.lt_size hn.not_constant]
    exact hn.start_nonneg
  start_lt := by
    rw [h.start v hn.lt_size hn.not_constant]
    exact hn.start_lt
  le_stop := Int.le_trans hn.le_stop (h.stop v hn.lt_size hn.not_constant)

theorem usable (h : K.Extends K') (hu : Usable K (K.Needed p) v) : Usable K' (K'.Needed p) v :=
  ⟨Nat.lt_of_lt_of_le hu.1 h.size, hu.2.imp (fun hc => (h.isConstant v hu.1).trans hc) h.needed⟩

theorem fresh (h : K.Extends K') (hf : Fresh K p x) : Fresh K' p x where
  lt_size := Nat.lt_of_lt_of_le hf.lt_size h.size
  not_constant := (h.isConstant x hf.lt_size).trans hf.not_constant
  start_eq := (h.start x hf.lt_size hf.not_constant).trans hf.start_eq

theorem computes (h : K.Extends K') (hx : x < K.size) (hc : Computes K p x kind) :
    Computes K' p x kind := by
  have hw := h.word x hx
  cases hc with
  | duplicate hv hword => exact .duplicate (h.usable hv) (by rw [hw, hword, h.word _ hv.1])
  | addition hu hv hword =>
    exact .addition (h.usable hu) (h.usable hv) (by rw [hw, hword, h.word _ hu.1, h.word _ hv.1])
  | subtraction hu hv hword =>
    exact .subtraction (h.usable hu) (h.usable hv)
      (by rw [hw, hword, h.word _ hu.1, h.word _ hv.1])
  | multiplication hu hk hv hword =>
    exact .multiplication (h.usable hu) ((h.isConstant _ hu.1).trans hk) (h.usable hv)
      (by rw [hw, hword, h.word _ hu.1, h.word _ hv.1])

end Plan.Extends

/-! ## The invariant -/

/-- A cell before the build: a literal, or a value without a place that was made by one of so many
instructions. -/
structure Drafted (W : ValueId → Word) (count : Nat) (v : ValueId) (c : Cell) : Prop where
  format : c.format = .i64
  edges : c.edges = []
  place : c.handle = .constant (.integer (W v)) ∨
    c.handle = .none ∧ 0 ≤ c.lifetime.start ∧ c.lifetime.start < count ∧
      c.lifetime.start ≤ c.lifetime.stop

/-- **The invariant of the lowering**, for a function with so many parameters: the first instruction
binds them, each later one computes its result, and nothing else has made a value. -/
structure Draft (n : Nat) (W : ValueId → Word) (r : Routine) : Prop where
  cells : ∀ v c, r.values.cell? v = some c → Drafted W r.instructions.size v c
  opening : ∃ i, r.instructions[0]? = some i ∧ i.kind = .bindParameters (List.range n)
  parameters : ∀ v < n, Fresh (planOf W r.values) 0 v
  marker : Fresh (planOf W r.values) 0 n ∧ ((planOf W r.values).lifetime n).stop = 0
  computes : ∀ p i, 0 < p → r.instructions[p]? = some i →
    Fresh (planOf W r.values) p i.result ∧ Computes (planOf W r.values) p i.result i.kind
  made : ∀ v, n < v → v < r.values.size → (planOf W r.values).isConstant v = false →
    ∃ p i, 0 < p ∧ ((planOf W r.values).lifetime v).start = (p : Nat) ∧
      r.instructions[p]? = some i ∧ i.result = v

theorem Drafted.inner (h : Drafted W p v c) : c.handle.inner = [] := by
  rcases h.place with h | ⟨h, -⟩ <;> rw [h] <;> rfl

theorem Drafted.describes (h : Drafted W p v c) (hc : a.cell? v = some c) :
    (planOf W a).Describes v c where
  format := h.format
  edges := h.edges
  lifetime := (planOf_lifetime hc).symm
  constant hk := by
    rw [planOf_isConstant hc] at hk
    rcases h.place with h | ⟨h, -⟩
    · exact h
    · simp [h, Handle.isConstant] at hk

variable {n w : Nat} {r r' : Routine}

namespace Draft

theorem exists_cell (h : Draft n W r) (hv : v < r.values.size) :
    ∃ c, r.values.cell? v = some c ∧ Drafted W r.instructions.size v c := by
  obtain ⟨c, hc⟩ := Arena.exists_cell hv
  exact ⟨c, hc, h.cells v c hc⟩

theorem plan (h : Draft n W r) (hb : r.values.Continues r.instructions.size b)
    (hW : ∀ v < r.values.size, W' v = W v) : (planOf W r.values).Extends (planOf W' b) := by
  have cells {v : ValueId} (hv : v < r.values.size) : ∃ c d, r.values.cell? v = some c ∧
      b.cell? v = some d ∧ Drafted W r.instructions.size v c ∧ d.handle = c.handle ∧
      (d.lifetime = c.lifetime ∨ d.lifetime = c.lifetime.extend r.instructions.size) := by
    obtain ⟨c, hc, hd⟩ := h.exists_cell hv
    obtain ⟨d, hd', -, -, hh, hl⟩ := hb.cell v c hc
    exact ⟨c, d, hc, hd', hd, hh, hl⟩
  have bounds {v : ValueId} (hv : v < r.values.size)
      (hk : (planOf W r.values).isConstant v = false) :
      ((planOf W' b).lifetime v).start = ((planOf W r.values).lifetime v).start ∧
        ((planOf W r.values).lifetime v).stop ≤ ((planOf W' b).lifetime v).stop := by
    obtain ⟨c, d, hc, hd, hdraft, -, hl⟩ := cells hv
    rw [planOf_isConstant hc] at hk
    rw [planOf_lifetime hc, planOf_lifetime hd]
    obtain hconst | ⟨-, h0, hlt, hle⟩ := hdraft.place
    · simp [hconst, Handle.isConstant] at hk
    · rcases hl with hl | hl <;> rw [hl]
      · exact ⟨rfl, Int.le_refl _⟩
      · grind [Lifetime.extend]
  exact {
    size := hb.size
    word := hW
    isConstant := fun v hv => by
      obtain ⟨c, d, hc, hd, -, hh, -⟩ := cells hv
      rw [planOf_isConstant hc, planOf_isConstant hd, hh]
    start := fun v hv hk => (bounds hv hk).1
    stop := fun v hv hk => (bounds hv hk).2 }

/-- A value that can be an operand of the next instruction. -/
theorem usable (h : Draft n W r) (hb : r.values.Continues r.instructions.size b)
    (hW : ∀ v < r.values.size, W' v = W v) (hv : v < r.values.size)
    (hused : ∀ c, r.values.cell? v = some c → ∃ d, b.cell? v = some d ∧
      d.lifetime = c.lifetime.extend r.instructions.size) :
    Usable (planOf W' b) ((planOf W' b).Needed r.instructions.size) v := by
  have he := h.plan hb hW
  obtain ⟨c, hc, hdraft⟩ := h.exists_cell hv
  obtain ⟨d, hd, hl⟩ := hused c hc
  refine ⟨Nat.lt_of_lt_of_le hv hb.size, ?_⟩
  rw [he.isConstant v hv, planOf_isConstant hc]
  rcases hdraft.place with hconst | ⟨hnone, h0, hlt, hle⟩
  · exact .inl (by rw [hconst]; rfl)
  · have hk : (planOf W r.values).isConstant v = false := by
      rw [planOf_isConstant hc, hnone]
      rfl
    have hstart := he.start v hv hk
    rw [planOf_lifetime hc] at hstart
    refine .inr ⟨Nat.lt_of_lt_of_le hv hb.size, (he.isConstant v hv).trans hk, ?_, ?_, ?_⟩
    · rw [hstart]
      exact h0
    · rw [hstart]
      exact hlt
    · rw [planOf_lifetime hd, hl]
      grind [Lifetime.extend]

/-- Cells that were made and used at the next instruction are still drafted. -/
theorem drafted (h : Draft n W r) (hb : r.values.Continues r.instructions.size b)
    (hW : ∀ v < r.values.size, W' v = W v) {count : Nat} (hcount : r.instructions.size ≤ count)
    (hnew : ∀ v c, r.values.size ≤ v → b.cell? v = some c → Drafted W' count v c) :
    ∀ v c, b.cell? v = some c → Drafted W' count v c := by
  intro v d hd
  obtain hv | ⟨c, hc, hf, he, hh, hl⟩ := hb.cases hd
  · exact hnew v d hv hd
  · have hdraft := h.cells v c hc
    refine ⟨hf.trans hdraft.format, he.trans hdraft.edges, ?_⟩
    rw [hh, hW v (Arena.cell?_lt hc)]
    refine hdraft.place.imp_right fun ⟨hnone, h0, hlt, hle⟩ => ⟨hnone, ?_⟩
    rcases hl with hl | hl <;> rw [hl]
    · omega
    · grind [Lifetime.extend]

/-- **What keeps the invariant**: values are made and used, of which new ones without a place are
made by new instructions, and the marker of the parameters is not used. -/
theorem grow (h : Draft n W r) (hb : r.values.Continues r.instructions.size r'.values)
    (hW : ∀ v < r.values.size, W' v = W v)
    (hold : ∀ (p : Nat) (i : Instruction),
      r.instructions[p]? = some i → r'.instructions[p]? = some i)
    (hi : ∀ (p : Nat) (i : Instruction), r'.instructions[p]? = some i → r.instructions[p]? = some i ∨
      Fresh (planOf W' r'.values) p i.result ∧ Computes (planOf W' r'.values) p i.result i.kind)
    (hcount : r.instructions.size ≤ r'.instructions.size)
    (hcells : ∀ v c, r.values.size ≤ v → r'.values.cell? v = some c →
      Drafted W' r'.instructions.size v c)
    (hmade : ∀ v, r.values.size ≤ v → v < r'.values.size →
      (planOf W' r'.values).isConstant v = false →
      ∃ p i, 0 < p ∧ ((planOf W' r'.values).lifetime v).start = (p : Nat) ∧
        r'.instructions[p]? = some i ∧ i.result = v)
    (hmarker : (planOf W' r'.values).lifetime n = (planOf W r.values).lifetime n) :
    Draft n W' r' := by
  have he := h.plan hb hW
  obtain ⟨hfresh, hstop⟩ := h.marker
  refine ⟨h.drafted hb hW hcount hcells, ?_, fun v hv => he.fresh (h.parameters v hv),
    ⟨he.fresh hfresh, by rw [hmarker, hstop]⟩, fun p i hp hpi => ?_, fun v hv hlt hk => ?_⟩
  · obtain ⟨i, hi, hkind⟩ := h.opening
    exact ⟨i, hold 0 i hi, hkind⟩
  · rcases hi p i hpi with hpi | hnew
    · obtain ⟨hf, hc⟩ := h.computes p i hp hpi
      exact ⟨he.fresh hf, he.computes hf.lt_size hc⟩
    · exact hnew
  · by_cases hv' : v < r.values.size
    · rw [he.isConstant v hv'] at hk
      obtain ⟨p, i, hp, hstart, hpi, hres⟩ := h.made v hv hv' hk
      exact ⟨p, i, hp, (he.start v hv' hk).trans hstart, hold p i hpi, hres⟩
    · exact hmade v (Nat.le_of_not_lt hv') hlt hk

end Draft

/-! ## Steps of the lowering -/

/-- Between two moments of the lowering at most so many instructions were appended, and the plan
was extended. -/
structure Grown (k : Nat) (W : ValueId → Word) (r : Routine) (W' : ValueId → Word) (r' : Routine) :
    Prop where
  routine : r' = { r with
    values := r'.values, instructions := r'.instructions, bindings := r'.bindings }
  plan : (planOf W r.values).Extends (planOf W' r'.values)
  le_size : r.instructions.size ≤ r'.instructions.size
  count : r'.instructions.size ≤ r.instructions.size + k

/-- The value stands for the word, and is not the marker of the parameters. -/
structure Stands (n : Nat) (W : ValueId → Word) (r : Routine) (x : ValueId) (w : Word) : Prop where
  lt_size : x < r.values.size
  ne_marker : x ≠ n
  word : W x = w

/-- The step gave a value for the word, appended at most so many instructions and bound nothing. -/
def Gives (n : Nat) (W : ValueId → Word) (r : Routine) (k : Nat) (w : Word) (x : ValueId)
    (r' : Routine) : Prop :=
  ∃ W', Draft n W' r' ∧ Grown k W r W' r' ∧ Stands n W' r' x w ∧ r'.bindings = r.bindings

variable {k l : Nat} {W'' : ValueId → Word} {r'' : Routine} {w : Word} {us : List ValueId}

theorem Grown.refl (W : ValueId → Word) (r : Routine) : Grown 0 W r W r :=
  ⟨rfl, .refl _, Nat.le_refl _, Nat.le_refl _⟩

theorem Grown.trans (h : Grown k W r W' r') (h' : Grown l W' r' W'' r'') :
    Grown (k + l) W r W'' r'' where
  routine := by
    rw [h'.routine, h.routine]
  plan := h.plan.trans h'.plan
  le_size := Nat.le_trans h.le_size h'.le_size
  count := by
    have := h.count
    have := h'.count
    omega

theorem Grown.relax (h : Grown k W r W' r') (hkl : k ≤ l) : Grown l W r W' r' :=
  { h with count := Nat.le_trans h.count (Nat.add_le_add_left hkl _) }

theorem Stands.grown (h : Stands n W r x w) (hg : Grown k W r W' r') : Stands n W' r' x w :=
  ⟨Nat.lt_of_lt_of_le h.lt_size hg.plan.size, h.ne_marker, (hg.plan.word x h.lt_size).trans h.word⟩

namespace Draft

theorem marker_lt (h : Draft n W r) : n < r.values.size := h.marker.1.lt_size

theorem literal (h : Draft n W r) (w : Word) :
    Generating.Runs (Generating.create (.constant (.integer w)) .i64) r (Gives n W r 0 w) := by
  obtain ⟨values, hcreate, hsize, hcell⟩ : ∃ values,
      (r.values.create (.constant (.integer w)) .i64).2 = values ∧
      values.size = r.values.size + 1 ∧ ∀ v, values.cell? v =
        if v = r.values.size then some (Arena.fresh (.constant (.integer w)) .i64)
        else r.values.cell? v :=
    ⟨_, rfl, by simp [Arena.size, Arena.create], fun v => Arena.cell?_create ..⟩
  have hcontinues : r.values.Continues r.instructions.size values := by
    refine ⟨by omega, fun v c hc => ⟨c, ?_, rfl, rfl, rfl, .inl rfl⟩⟩
    rw [hcell, if_neg (Nat.ne_of_lt (Arena.cell?_lt hc)), hc]
  have hW : ∀ v < r.values.size, Function.update W r.values.size w v = W v :=
    fun v hv => Function.update_of_ne (Nat.ne_of_lt hv) ..
  have hnew : values.cell? r.values.size = some (Arena.fresh (.constant (.integer w)) .i64) := by
    rw [hcell, if_pos rfl]
  have hlast {v : ValueId} (hv : r.values.size ≤ v) (hlt : v < values.size) :
      v = r.values.size := by
    rw [hsize] at hlt
    exact Nat.le_antisymm (Nat.le_of_lt_succ hlt) hv
  have hplan := h.plan hcontinues hW
  have hmade : Generating.create (.constant (.integer w)) .i64 r =
      .ok r.values.size { r with values } := by
    rw [← hcreate]
    rfl
  refine .of_eq hmade
    ⟨Function.update W r.values.size w, h.grow hcontinues hW (fun _ _ => id) (fun _ _ => .inl)
      (Nat.le_refl _) ?_ ?_ ?_, ⟨rfl, hplan, Nat.le_refl _, Nat.le_refl _⟩, ⟨?_, ?_, ?_⟩, rfl⟩
  · intro v c hv hc
    obtain rfl := hlast hv (Arena.cell?_lt hc)
    obtain rfl := Option.some.inj (hnew.symm.trans hc)
    exact ⟨rfl, rfl, .inl (by simp [Arena.fresh])⟩
  · intro v hv hlt hk
    obtain rfl := hlast hv hlt
    rw [planOf_isConstant hnew] at hk
    cases hk
  · obtain ⟨c, hc, -⟩ := h.exists_cell h.marker_lt
    rw [planOf_lifetime hc, planOf_lifetime (c := c)]
    rw [hcell, if_neg (Nat.ne_of_lt h.marker_lt), hc]
  · change r.values.size < values.size
    omega
  · exact Nat.ne_of_gt h.marker_lt
  · exact Function.update_self ..

/-- **An appended instruction** that uses values of a draft: the plan is extended, the operands can
be used, and the result is made by the instruction. -/
theorem appended (h : Draft n W r) (hk : Generating.IsDirect kind)
    (hus : kind.parameters.map (·.value) = us) (hlt : ∀ u ∈ us, u < r.values.size ∧ u ≠ n)
    (w : Word) :
    Generating.Runs (Generating.append kind .i64) r fun x r' => x = r.values.size ∧ ∃ values,
      r' = { r with
        values, instructions := r.instructions.push ⟨kind, x, kind.parameters, []⟩ } ∧
      values.size = r.values.size + 1 ∧
      r.values.Continues r.instructions.size values ∧
      (∀ v c, values.cell? v = some c →
        Drafted (Function.update W x w) (r.instructions.size + 1) v c) ∧
      (∀ u ∈ us, Usable (planOf (Function.update W x w) values)
        ((planOf (Function.update W x w) values).Needed r.instructions.size) u) ∧
      Fresh (planOf (Function.update W x w) values) r.instructions.size x ∧
      (planOf (Function.update W x w) values).lifetime n = (planOf W r.values).lifetime n := by
  refine (Generating.append_spec hk fun q hq => ?_).mono ?_
  · obtain ⟨c, hc, hdraft⟩ := h.exists_cell (hlt q.value (hus ▸ List.mem_map_of_mem hq)).1
    exact ⟨c, hc, hdraft.edges, hdraft.inner⟩
  rintro _ _ ⟨rfl, values, rfl, hsize, hnew, hcell⟩
  rw [hus] at hcell
  have hcontinues : r.values.Continues r.instructions.size values := by
    refine ⟨by omega, fun v c hc => ?_⟩
    have hv := hcell v (Arena.cell?_lt hc)
    rw [hc, Option.map_some] at hv
    refine ⟨_, hv, ?_⟩
    split
    · exact ⟨rfl, rfl, rfl, .inr rfl⟩
    · exact ⟨rfl, rfl, rfl, .inl rfl⟩
  have hW : ∀ v < r.values.size, Function.update W r.values.size w v = W v :=
    fun v hv => Function.update_of_ne (Nat.ne_of_lt hv) ..
  refine ⟨rfl, values, rfl, hsize, hcontinues, ?_, fun u hu => ?_, ⟨?_, ?_, ?_⟩, ?_⟩
  · refine h.drafted hcontinues hW (Nat.le_succ _) fun v c hv hc => ?_
    obtain rfl : v = r.values.size := by
      have hlt := Arena.cell?_lt hc
      rw [hsize] at hlt
      exact Nat.le_antisymm (Nat.le_of_lt_succ hlt) hv
    obtain rfl := Option.some.inj (hnew.symm.trans hc)
    exact ⟨rfl, rfl, .inr ⟨rfl, Int.natCast_nonneg _, Int.ofNat_lt.mpr (Nat.lt_succ_self _),
      Int.le_refl _⟩⟩
  · refine h.usable hcontinues hW (hlt u hu).1 fun c hc => ?_
    have hv := hcell u (hlt u hu).1
    rw [hc, Option.map_some, if_pos hu] at hv
    exact ⟨_, hv, rfl⟩
  · change r.values.size < values.size
    omega
  · rw [planOf_isConstant hnew]
    rfl
  · rw [planOf_lifetime hnew]
  · obtain ⟨c, hc, -⟩ := h.exists_cell h.marker_lt
    have hv := hcell n h.marker_lt
    rw [hc, Option.map_some, if_neg fun hn => (hlt n hn).2 rfl] at hv
    rw [planOf_lifetime hc, planOf_lifetime hv]

/-- **An instruction that computes a word.** -/
theorem append (h : Draft n W r) (hk : Generating.IsDirect kind)
    (hus : kind.parameters.map (·.value) = us) (hlt : ∀ u ∈ us, u < r.values.size ∧ u ≠ n)
    (w : Word) (hc : ∀ K : Plan, (planOf W r.values).Extends K →
      (∀ u ∈ us, Usable K (K.Needed r.instructions.size) u) → K.word r.values.size = w →
      Computes K r.instructions.size r.values.size kind) :
    Generating.Runs (Generating.append kind .i64) r (Gives n W r 1 w) := by
  refine (h.appended hk hus hlt w).mono ?_
  rintro _ _ ⟨rfl, values, rfl, hsize, hcontinues, hcells, husable, hfresh, hmarker⟩
  have hW : ∀ v < r.values.size, Function.update W r.values.size w v = W v :=
    fun v hv => Function.update_of_ne (Nat.ne_of_lt hv) ..
  have hplan := h.plan hcontinues hW
  have hfirst : 0 < r.instructions.size := by
    obtain ⟨i, hi, -⟩ := h.opening
    exact (Array.getElem?_eq_some_iff.mp hi).1
  have hnew : (r.instructions.push ⟨kind, r.values.size, kind.parameters, []⟩)[
      r.instructions.size]? = some ⟨kind, r.values.size, kind.parameters, []⟩ := by simp
  refine ⟨Function.update W r.values.size w, h.grow hcontinues hW (fun p i hp => ?_)
    (fun p i hp => ?_) (by simp) (fun v c _ hc => ?_) (fun v hv hlt hk => ?_) hmarker,
    ⟨rfl, hplan, by simp, by simp⟩, ⟨hfresh.lt_size, Nat.ne_of_gt h.marker_lt, Function.update_self ..⟩, rfl⟩
  · simp [Array.getElem?_push_lt (Array.getElem?_eq_some_iff.mp hp).1,
      (Array.getElem?_eq_some_iff.mp hp).2]
  · by_cases hlast : p = r.instructions.size
    · subst hlast
      obtain rfl := Option.some.inj (hnew.symm.trans hp)
      exact .inr ⟨hfresh, hc _ hplan husable (Function.update_self ..)⟩
    · rw [Array.getElem?_push, if_neg hlast] at hp
      exact .inl hp
  · simpa using hcells v c hc
  · obtain rfl : v = r.values.size := by
      change v < values.size at hlt
      rw [hsize] at hlt
      exact Nat.le_antisymm (Nat.le_of_lt_succ hlt) hv
    exact ⟨_, _, hfirst, hfresh.start_eq, hnew, rfl⟩

theorem bind (h : Draft n W r) (hx : x < r.values.size) (v : VariableId) :
    Generating.Runs (Generating.bind v x) r fun _ r' => Draft n W r' ∧ Grown 0 W r W r' ∧
      r'.bindings = Binding.put v x r.bindings := by
  obtain ⟨c, hc, hdraft⟩ := h.exists_cell hx
  obtain ⟨m, hbind⟩ := Generating.bind_eq hc hdraft.edges v
  have hplan := planOf_metadata (W := W) (a := r.values) (x := x) m
  refine .of_eq hbind ⟨?_, ⟨rfl, ?_, Nat.le_refl _, Nat.le_refl _⟩, rfl⟩
  · refine ⟨fun v d hd => ?_, h.opening, by rw [hplan]; exact h.parameters, by
      rw [hplan]; exact h.marker, by rw [hplan]; exact h.computes, fun v hv hlt hk => ?_⟩
    · change Arena.cell? _ v = some d at hd
      rw [Arena.cell?_modify, Option.map_eq_some_iff] at hd
      obtain ⟨c', hc', rfl⟩ := hd
      have hdraft' := h.cells v c' hc'
      split <;> exact ⟨hdraft'.format, hdraft'.edges, hdraft'.place⟩
    · change v < Array.size _ at hlt
      rw [Array.size_modify] at hlt
      rw [hplan] at hk ⊢
      exact h.made v hv hlt hk
  · rw [hplan]
    exact .refl _

end Draft

end Straight

end Codegen
