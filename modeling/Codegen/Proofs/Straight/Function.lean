import Codegen.Proofs.Straight.Lowering
import Codegen.Proofs.Straight.Return
import Codegen.Proofs.Tree.Splice

/-!
# Functions with straight-line bodies

The parameters of a function become its first values, in order, and the first instruction takes
them from the registers of the calling convention. Only if there are more of them than registers is
a function refused. What a draft says of its values is the plan of the build: the first instruction
finds the parameters in their registers, each later one makes its result from values that are at
home, and the last one returns the word of the body.

* `Incoming`: the parameters that were made so far;
* `bindParameters_spec`: **the draft of a function begins with its parameters**;
* `lowerFunction_spec`: **the whole function is drafted**, and `lowerFunction_refused`;
* `Complete.build_spec`: **the operations of a drafted function compute its word**.
-/

namespace Codegen.Straight

open Generating Shape

variable {symbols : SymbolTable} {r r' : Routine} {done ps : List VariableId} {v : VariableId}
variable {σ : VariableId → Word} {W : ValueId → Word} {w : Word} {info : FunctionInfo}
variable {body : List Shape}

/-! ## Parameters -/

/-- The parameters were made and bound, in order, and nothing was done with them. -/
structure Incoming (done : List VariableId) (r : Routine) : Prop where
  size : r.values.size = done.length
  cells : ∀ v c, r.values.cell? v = some c →
    c.handle = .none ∧ c.format = .i64 ∧ c.edges = [] ∧ c.lifetime = .unused
  bound : ∀ u ∈ done, ∃ x, r.bindings.lookup u = some x
  lookup : ∀ u x, r.bindings.lookup u = some x → done[x]? = some u

theorem bindParameter_spec (h : Incoming done r) (hv : HoldsWord symbols v)
    (hw : HasWords symbols) (hs : r.symbols = symbols) :
    Runs (bindParameter v) r fun x r' => x = done.length ∧ Incoming (done ++ [v]) r' ∧
      r' = { r with values := r'.values, bindings := r'.bindings } := by
  obtain ⟨values, hcreate, hsize, hcell⟩ : ∃ values,
      (r.values.create .none .i64).2 = values ∧ values.size = r.values.size + 1 ∧
      ∀ v, values.cell? v = if v = r.values.size then some (Arena.fresh .none .i64)
        else r.values.cell? v :=
    ⟨_, rfl, by simp [Arena.size, Arena.create], fun v => Arena.cell?_create ..⟩
  have hnew : values.cell? done.length = some (Arena.fresh .none .i64) := by
    rw [hcell, h.size, if_pos rfl]
  obtain ⟨m, hbind⟩ := bind_eq (r := { r with values }) hnew rfl v
  unfold bindParameter
  refine .step (hv.formatOfVariable_eq hw hs) ?_
  have hmade : Generating.create .none .i64 r = .ok done.length { r with values } := by
    rw [← hcreate, ← h.size]
    rfl
  refine .step hmade ?_
  refine .step hbind (.pure ⟨rfl, ⟨?_, fun u c hc => ?_, fun u hu => ?_, fun u x hx => ?_⟩, rfl⟩)
  · simpa [Arena.size] using hsize.trans (congrArg (· + 1) h.size)
  · change Arena.cell? _ u = some c at hc
    rw [Arena.cell?_modify, hcell, Option.map_eq_some_iff] at hc
    obtain ⟨c', hc', rfl⟩ := hc
    have hc'' : c'.handle = .none ∧ c'.format = .i64 ∧ c'.edges = [] ∧ c'.lifetime = .unused := by
      split at hc'
      · obtain rfl := Option.some.inj hc'
        exact ⟨rfl, rfl, rfl, rfl⟩
      · exact h.cells u c' hc'
    split <;> exact hc''
  · change ∃ x, (Binding.put v _ r.bindings).lookup u = some x
    rw [lookup_put]
    by_cases huv : u = v
    · exact ⟨_, if_pos huv⟩
    · rw [if_neg huv]
      exact h.bound u (by simpa [huv] using hu)
  · change (Binding.put v _ r.bindings).lookup u = some x at hx
    rw [lookup_put] at hx
    by_cases huv : u = v
    · rw [if_pos huv] at hx
      obtain rfl := Option.some.inj hx
      simp [huv]
    · rw [if_neg huv] at hx
      have hold := h.lookup u x hx
      rw [List.getElem?_append_left (List.getElem?_eq_some_iff.mp hold).1, hold]

/-- All parameters that are left. -/
theorem mapM_bindParameter_spec (h : Incoming done r) (hps : ∀ v ∈ ps, HoldsWord symbols v)
    (hw : HasWords symbols) (hs : r.symbols = symbols) :
    Runs (ps.mapM bindParameter) r fun xs r' => xs = List.range' done.length ps.length ∧
      Incoming (done ++ ps) r' ∧ r' = { r with values := r'.values, bindings := r'.bindings } := by
  induction ps generalizing done r with
  | nil => exact .pure ⟨rfl, by simpa using h, rfl⟩
  | cons v ps ih =>
    rw [List.mapM_cons]
    refine .bind (bindParameter_spec h (hps v List.mem_cons_self) hw hs) ?_
    rintro _ r₁ ⟨rfl, h₁, hr₁⟩
    refine .bind (ih h₁ (fun u hu => hps u (List.mem_cons_of_mem _ hu)) (by rw [hr₁]; exact hs)) ?_
    rintro _ r₂ ⟨rfl, h₂, hr₂⟩
    refine .pure ⟨by simp [List.range'_succ], by simpa using h₂, ?_⟩
    rw [hr₂, hr₁]

/-- The words of the parameters, by number. -/
def incoming (σ : VariableId → Word) (ps : List VariableId) (x : ValueId) : Word :=
  (ps[x]?).elim 0 σ

/-- **The first instruction takes the parameters.** -/
theorem Incoming.draft (h : Incoming ps r) (hr : r.instructions = #[]) (σ : VariableId → Word) :
    Runs (Generating.append (.bindParameters (List.range ps.length)) .i64) r fun _ r' =>
      Draft ps.length (incoming σ ps) r' ∧ Bound ps.length (incoming σ ps) r' σ (· ∈ ps) ∧
      r'.values.size = ps.length + 1 ∧ r'.instructions.size = 1 ∧
      r' = { r with values := r'.values, instructions := r'.instructions } := by
  have hd : IsDirect (.bindParameters (List.range ps.length)) := ⟨rfl, rfl, fun _ _ => rfl⟩
  have hvalues : (InstructionKind.bindParameters (List.range ps.length)).parameters.map (·.value) =
      List.range ps.length := by
    simp [InstructionKind.parameters, Function.comp_def]
  refine (append_spec hd fun q hq => ?_).mono ?_
  · have hmem : q.value ∈ List.range ps.length := hvalues ▸ List.mem_map_of_mem hq
    have hlt : q.value < r.values.size := by
      rw [h.size]
      exact List.mem_range.mp hmem
    obtain ⟨c, hc⟩ := Arena.exists_cell hlt
    obtain ⟨hh, -, he, -⟩ := h.cells _ c hc
    exact ⟨c, hc, he, by rw [hh]; rfl⟩
  rintro _ _ ⟨rfl, values, rfl, hsize, hnew, hcell⟩
  rw [hvalues] at hcell
  have hsize' : values.size = ps.length + 1 := by rw [hsize, h.size]
  have hcells (v : ValueId) (c : Cell) (hc : values.cell? v = some c) :
      c.handle = .none ∧ c.format = .i64 ∧ c.edges = [] ∧ c.lifetime = ⟨0, 0⟩ := by
    have hv := Arena.cell?_lt hc
    rw [hsize] at hv
    rcases Nat.lt_succ_iff_lt_or_eq.mp hv with hv | rfl
    · rw [hcell v hv, Option.map_eq_some_iff] at hc
      obtain ⟨c', hc', rfl⟩ := hc
      obtain ⟨hh, hf, he, hl⟩ := h.cells v c' hc'
      rw [if_pos (List.mem_range.mpr (h.size ▸ hv))]
      exact ⟨hh, hf, he, by simp [hl, hr, Lifetime.extend, Lifetime.unused]⟩
    · obtain rfl := Option.some.inj (hnew.symm.trans hc)
      exact ⟨rfl, rfl, rfl, by simp [hr]⟩
  have hfresh (v : ValueId) (hv : v < values.size) :
      Fresh (planOf (incoming σ ps) values) 0 v ∧
        ((planOf (incoming σ ps) values).lifetime v).stop = 0 := by
    obtain ⟨c, hc⟩ := Arena.exists_cell hv
    obtain ⟨hh, -, -, hl⟩ := hcells v c hc
    refine ⟨⟨hv, ?_, ?_⟩, ?_⟩
    · rw [planOf_isConstant hc, hh]
      rfl
    · rw [planOf_lifetime hc, hl]
      rfl
    · rw [planOf_lifetime hc, hl]
  have hone (i : Instruction) : (r.instructions.push i).size = 1 := by rw [Array.size_push, hr]; rfl
  refine ⟨⟨fun v c hc => ?_, ⟨_, by rw [hr]; rfl, rfl⟩, fun v hv => (hfresh v ?_).1,
    hfresh _ ?_, fun p i hp hi => ?_, fun v hv hlt _ => ?_⟩, fun u hu => ?_, hsize', hone _, rfl⟩
  · obtain ⟨hh, hf, he, hl⟩ := hcells v c hc
    exact ⟨hf, he, .inr ⟨hh, by simp [hl], by simp [hl], by simp [hl]⟩⟩
  · change v < values.size
    omega
  · change ps.length < values.size
    omega
  · have hlt := (Array.getElem?_eq_some_iff.mp hi).1
    rw [hone] at hlt
    omega
  · change v < values.size at hlt
    rw [hsize'] at hlt
    exact absurd hv (Nat.not_lt.mpr (Nat.le_of_lt_succ hlt))
  · obtain ⟨x, hx⟩ := h.bound u hu
    have hxu := h.lookup u x hx
    have hlt := (List.getElem?_eq_some_iff.mp hxu).1
    refine ⟨x, hx, ?_, Nat.ne_of_lt hlt, by rw [incoming, hxu]; rfl⟩
    change x < values.size
    rw [hsize']
    exact Nat.lt_succ_of_lt hlt

theorem incoming_nil (h : r.values = .empty) (hb : r.bindings = []) :
    Incoming [] r where
  size := by rw [h]; rfl
  cells v c hc := by
    rw [h] at hc
    cases hc
  bound := by simp
  lookup u x hx := by
    rw [hb] at hx
    cases hx

/-! ## Functions -/

/-- **A function with a straight-line body**, from words to a word. -/
structure IsStraight (symbols : SymbolTable) (function : FunctionId) (info : FunctionInfo)
    (body : List Shape) : Prop where
  found : symbols.functionInfo function = .ok info
  words : HasWords symbols
  parameters : ∀ v ∈ info.parameters, HoldsWord symbols v
  returns : info.returnType? = some (Primitive.ofFormat .i64)
  body : Body symbols (· ∈ info.parameters) body

/-- Does the function have a straight-line body? -/
def isStraight (symbols : SymbolTable) (function : FunctionId) (body : List Shape) : Bool :=
  (symbols.functionInfo function).toOption.any fun info =>
    (symbols.typeInfo (Primitive.ofFormat .i64)).toOption.any (·.format == .i64) &&
      info.parameters.all (holdsWord symbols) &&
      info.returnType? == some (Primitive.ofFormat .i64) && isBody symbols info.parameters body

theorem straight_of_isStraight {function : FunctionId} (h : isStraight symbols function body) :
    ∃ info, IsStraight symbols function info body := by
  have eq_ok {α : Type} {x : Except Fault α} {a : α} (h : x.toOption = some a) : x = .ok a := by
    cases x <;> simp_all [Except.toOption]
  obtain ⟨info, hfound, h⟩ := (Option.any_eq_true _ _).mp h
  simp only [Bool.and_eq_true, List.all_eq_true, beq_iff_eq] at h
  obtain ⟨⟨⟨hwords, hparameters⟩, hreturns⟩, hbody⟩ := h
  obtain ⟨type, htype, hformat⟩ := (Option.any_eq_true _ _).mp hwords
  exact ⟨info, eq_ok hfound, ⟨type, eq_ok htype, beq_iff_eq.mp hformat⟩,
    fun v hv => holdsWord_iff.mp (hparameters v hv), hreturns, body_of_isBody hbody⟩

section Functions

variable (h : IsStraight symbols r.function info body) (hs : r.symbols = symbols)
include h hs

theorem checkArguments_eq :
    (do checkArguments info.name (← info.parameters.mapM formatOfVariable)) r =
      if info.parameters.length ≤ r.target.parameters.length then .ok () r
      else .error (.report
        (.tooManyArguments info.name info.parameters.length r.target.parameters.length)) r := by
  have hformats : info.parameters.mapM formatOfVariable r =
      .ok (info.parameters.map fun _ => Format.i64) r :=
    mapM_eq fun v hv => (h.parameters v hv).formatOfVariable_eq h.words hs
  rw [bind_of_ok hformats]
  unfold checkArguments
  rw [bind_of_ok (g := get) (a := r) rfl,
    Target.argumentRegisters_integers _ (by simp [Format.isDecimal])]
  simp only [List.length_map]
  split <;> rfl

/-- **The draft of a function begins with its parameters.** -/
theorem bindParameters_spec (hlen : info.parameters.length ≤ r.target.parameters.length)
    (hr : r.instructions = #[]) (hv : r.values = .empty) (hb : r.bindings = []) :
    Runs bindParameters r fun _ r' =>
      Draft info.parameters.length (incoming σ info.parameters) r' ∧
      Bound info.parameters.length (incoming σ info.parameters) r' σ (· ∈ info.parameters) ∧
      r'.values.size = info.parameters.length + 1 ∧ r'.instructions.size = 1 ∧ r' = { r with
        values := r'.values, instructions := r'.instructions, bindings := r'.bindings } := by
  have hfound : ask (fun r => r.symbols.functionInfo r.function) r = .ok info r :=
    ask_eq (by rw [hs]; exact h.found)
  have hcheck := checkArguments_eq h hs
  rw [if_pos hlen] at hcheck
  unfold bindParameters
  refine .step hfound ?_
  rw [← bind_assoc]
  refine .step hcheck ?_
  refine .bind (mapM_bindParameter_spec (incoming_nil hv hb) h.parameters h.words hs) ?_
  rintro _ r₁ ⟨rfl, h₁, hr₁⟩
  rw [List.length_nil, ← List.range_eq_range']
  refine .bind (h₁.draft (by rw [hr₁]; exact hr) σ) ?_
  rintro - r₂ ⟨h₂, hb₂, hvalues, hsize, hr₂⟩
  refine .pure ⟨h₂, hb₂, hvalues, hsize, ?_⟩
  rw [hr₂, hr₁]

theorem lowerFunction_refused (hlen : r.target.parameters.length < info.parameters.length)
    (b : NodeId) : ∃ r', lowerFunction b r = .error (.report
      (.tooManyArguments info.name info.parameters.length r.target.parameters.length)) r' := by
  have hfound : ask (fun r => r.symbols.functionInfo r.function) r = .ok info r :=
    ask_eq (by rw [hs]; exact h.found)
  have hcheck := checkArguments_eq h hs
  rw [if_neg (Nat.not_le.mpr hlen)] at hcheck
  refine ⟨r, ?_⟩
  have hbind : bindParameters r = .error (.report
      (.tooManyArguments info.name info.parameters.length r.target.parameters.length)) r := by
    unfold bindParameters
    rw [bind_of_ok hfound, ← bind_assoc]
    exact bind_of_error hcheck
  exact bind_of_error hbind

/-- A function is drafted if its body is, behind the parameters. What holds of the body is told
along with it. -/
theorem lowerFunction_of_body {i : NodeId} {c : ContextId} {k : Nat}
    {E : (ValueId → Word) → Routine → Prop} (ht : r.tree.Shows (.node i (.scope c) body))
    (hlen : info.parameters.length ≤ r.target.parameters.length)
    (hr : r.instructions = #[]) (hv : r.values = .empty) (hb : r.bindings = [])
    (hbody : ∀ r₁, Draft info.parameters.length (incoming σ info.parameters) r₁ →
      Bound info.parameters.length (incoming σ info.parameters) r₁ σ (· ∈ info.parameters) →
      r₁.values.size = info.parameters.length + 1 → r₁ = { r with
        values := r₁.values, instructions := r₁.instructions, bindings := r₁.bindings } →
      Runs (lowerStatements (lowerWithin (2 * r.tree.size)) none (body.map (·.id))) r₁ fun _ r' =>
        ∃ W, Complete info.parameters.length W w r' ∧
          Grown k (incoming σ info.parameters) r₁ W r' ∧ E W r') :
    Runs (lowerFunction i) r fun _ r' => ∃ W, Complete info.parameters.length W w r' ∧
      (∀ x < info.parameters.length, W x = incoming σ info.parameters x) ∧
      r'.instructions.size ≤ k + 1 ∧ r' = { r with
        values := r'.values, instructions := r'.instructions, bindings := r'.bindings } ∧
      E W r' := by
  obtain ⟨f, hf, hd⟩ := ht.displays
  obtain ⟨⟨hk, hc⟩, -, -⟩ := Tree.Displays.cons.mp hd
  unfold lowerFunction
  refine .bind (bindParameters_spec (σ := σ) h hs hlen hr hv hb) ?_
  rintro - r₁ ⟨h₁, hb₁, hvalues, hsize₁, hr₁⟩
  have htree : r₁.tree = r.tree := by rw [hr₁]
  -- the body is one scope
  have hlower : Runs (lower i) r₁ fun _ r' => ∃ W, Complete info.parameters.length W w r' ∧
      Grown k (incoming σ info.parameters) r₁ W r' ∧ E W r' := by
    unfold lower
    refine .step (g := get) (a := r₁) rfl ?_
    rw [lowerWithin]
    unfold lowerNode
    refine .step (g := get) (a := r₁) rfl ?_
    rw [htree, show r.tree.kind i = .scope c from hk]
    refine .step (g := get) (a := r₁) rfl ?_
    rw [htree, hf.children, show f i = body.map (·.id) from hc]
    exact hbody r₁ h₁ hb₁ hvalues hr₁
  refine .bind hlower ?_
  rintro - r₂ ⟨W, h₂, hg, hE⟩
  obtain ⟨p, last, x, -, hcount, hlast, hret, -, -⟩ := h₂.closing
  have hfinish : finish r₂ = .ok () r₂ := by
    have hback : r₂.instructions.back?.any isReturn = true := by
      rw [Array.back?, hcount, Nat.add_sub_cancel, hlast]
      simp [isReturn, hret]
    unfold finish
    rw [bind_of_ok (g := get) (a := r₂) rfl, hback]
    rfl
  refine .of_eq hfinish ⟨W, h₂, fun x hx => ?_, ?_, ?_, hE⟩
  · exact hg.plan.word x (h₁.parameters x hx).lt_size
  · have := hg.count
    omega
  · rw [hg.routine, hr₁]

/-- **The whole function is drafted.** At most one instruction is appended for each node of the
body. -/
theorem lowerFunction_spec {i : NodeId} {c : ContextId}
    (ht : r.tree.Shows (.node i (.scope c) body))
    (hlen : info.parameters.length ≤ r.target.parameters.length)
    (hr : r.instructions = #[]) (hv : r.values = .empty) (hb : r.bindings = [])
    (σ : VariableId → Word) :
    Runs (lowerFunction i) r fun _ r' => ∃ W,
      Complete info.parameters.length W (returned σ body) r' ∧
      (∀ x < info.parameters.length, W x = incoming σ info.parameters x) ∧
      r'.instructions.size ≤ (ids body).length + 1 ∧ r' = { r with
        values := r'.values, instructions := r'.instructions, bindings := r'.bindings } := by
  have hsize : (ids body).length + 1 ≤ r.tree.size := by
    have := Tree.length_ids_le ht.nodup fun _ => ht.lt_size
    simpa using this
  refine (lowerFunction_of_body (E := fun _ _ => True) h hs ht hlen hr hv hb
    fun r₁ h₁ hb₁ _ hr₁ => ?_).mono fun _ r' ⟨W, hcomplete, hW, hcount, hroutine, _⟩ =>
      ⟨W, hcomplete, hW, hcount, hroutine⟩
  obtain ⟨f, hf, hd⟩ := ht.displays
  obtain ⟨-, hbody, -⟩ := Tree.Displays.cons.mp hd
  refine (h.body.lower_spec hf hbody h.parameters h.words (by omega) (by rw [hr₁])
    (by rw [hr₁]; exact hs) (by rw [hr₁]; exact ⟨info, h.found, h.returns⟩) h₁ hb₁ none).mono ?_
  rintro - r' ⟨W, hcomplete, hg⟩
  exact ⟨W, hcomplete, hg, trivial⟩

end Functions

end Codegen.Straight

/-! ## The build -/

namespace Codegen

namespace Straight

open Generating Shape

variable {m : Machine} {c : Config} {n : Nat} {W : ValueId → Word} {w : Word} {r : Routine}
variable {s₀ s : Machine.State}

/-! ## Before the first instruction -/

/-- The machine for the architecture of the configuration. -/
theorem Complete.reached (h : Complete n W w r) (hm : r.config.architecture = m.architecture)
    (hregisters : r.registers = m.architecture.target.registerFile) (ht : r.temporaries = 0)
    (ho : r.operations = []) (s₀ : Machine.State) :
    Reached m (planOf W r.values) r.config r.instructions.toList 0 s₀ r s₀ where
  config := rfl
  sound := {
    architecture := hm
    file := by
      rw [hregisters]
      exact RegisterFile.wellFormed_ofShape (by decide) (by decide)
    shape := by
      rw [hregisters]
      exact .refl _
    owners := fun q v _ hv => by
      rw [hregisters] at hv
      rw [show m.architecture.target.registerFile.owner? q = none from
        RegisterFile.owner?_ofShape] at hv
      cases hv
    size := rfl
    cells := fun v c hc => (h.cells v c hc).describes hc
    needed := fun v hv => hv
    homes := fun v hv => by
      have h0 := hv.start_nonneg
      have hlt := hv.start_lt
      exact absurd h0 (Int.not_le.mpr hlt)
    locks := by
      rw [hregisters]
      exact ⟨⟨[], Nat.le_refl 0, fun q hq => by
        simp [Target.registerFile, RegisterFile.ofShape] at hq⟩, fun q _ => by
        simp [Target.registerFile, RegisterFile.ofShape, RegisterFile.lockCount, Array.getD]⟩ }
  operations := ho
  instructions := ⟨[], rfl, by simp, rfl, by simp, ht ▸ .self _ _⟩

/-! ## The instructions -/

section Instructions

variable {p : Nat} {v : ValueId} {i : Instruction} {r₁ : Routine}

theorem Complete.origin (h : Complete n W w r) (hv : (planOf W r.values).Needed (p + 1) v)
    (hstart : ((planOf W r.values).lifetime v).start = p) :
    (p = 0 ∧ v < n) ∨ 0 < p ∧ ∃ i, r.instructions[p]? = some i ∧ i.result = v := by
  rcases Nat.lt_trichotomy v n with hlt | rfl | hgt
  · have := (h.parameters v hlt).start_eq
    exact .inl ⟨by omega, hlt⟩
  · -- the marker of the parameters is not needed
    have := hv.le_stop
    rw [h.marker.2] at this
    omega
  · obtain ⟨q, i, hq, hstart', hi, hres⟩ := h.made v hgt hv.lt_size hv.not_constant
    obtain rfl : q = p := by omega
    exact .inr ⟨hq, i, hi, hres⟩

/-- The first instruction finds the parameters. -/
theorem Complete.buildAt_first (h : Complete n W w r)
    (hreached : Reached m (planOf W r.values) c r.instructions.toList 0 s₀ r₁ s)
    (hi : r.instructions[0]? = some i) (hlen : n ≤ m.architecture.target.parameters.length)
    (hunused : ∀ q, r₁.registers.used.contains q = false)
    (hargs : ∀ x q, (x, q) ∈ (List.range n).zip m.architecture.target.parameters →
      s.registers q = W x) :
    Runs (buildAt 0 i) r₁ fun _ r' => r₁.temporaries ≤ r'.temporaries ∧
      ∃ s', Reached m (planOf W r.values) c r.instructions.toList 1 s₀ r' s' := by
  obtain ⟨j, hj, hkind⟩ := h.opening
  obtain rfl : i = j := Option.some.inj (hi.symm.trans hj)
  refine buildAt_spec hreached (by rwa [Array.getElem?_toList]) fun r' hpos hsound hused => ?_
  have hlater : Sound m (planOf W r.values) ((planOf W r.values).Later r'.position) 0 r' s :=
    hsound.weaken fun _ hl => hl.1
  rw [hkind]
  refine (buildParameters_spec hpos hlater (fun x hx => h.parameters x (List.mem_range.mp hx))
    List.nodup_range (by simpa using hlen) (fun q => ?_) hargs).mono ?_
  · by_contra hq
    have := hused q (by simpa using hq)
    simp [hunused q] at this
  · rintro - r'' s'' ⟨rfl, h'', hholds⟩
    refine ⟨h''.relax (Nat.zero_le _), fun v hv hstart => ?_⟩
    obtain ⟨-, hlt⟩ | ⟨hpos, -⟩ := h.origin hv hstart
    · exact hholds v (List.mem_range.mpr hlt)
    · exact absurd hpos (Nat.lt_irrefl 0)

/-- The instructions between the first and the last one. -/
theorem Complete.buildAt_later (h : Complete n W w r)
    (hreached : Reached m (planOf W r.values) c r.instructions.toList p s₀ r₁ s) (hp : 0 < p)
    (hlt : p + 1 < r.instructions.size) (hi : r.instructions[p]? = some i) :
    Runs (buildAt p i) r₁ fun _ r' => r₁.temporaries ≤ r'.temporaries ∧
      ∃ s', Reached m (planOf W r.values) c r.instructions.toList (p + 1) s₀ r' s' := by
  obtain ⟨hfresh, hcomputes⟩ := h.computes p i hp hlt hi
  refine buildAt_spec hreached (by rwa [Array.getElem?_toList]) fun r' hpos hsound _ => ?_
  subst hpos
  refine (buildInstruction_spec hsound hfresh hcomputes _).mono fun _ r'' s'' hmade => ?_
  refine ⟨hmade.sound, fun v hv hstart => ?_⟩
  obtain ⟨h0, -⟩ | ⟨-, j, hj, rfl⟩ := h.origin hv hstart
  · exact absurd h0 (Nat.pos_iff_ne_zero.mp hp)
  · obtain rfl : i = j := Option.some.inj (hi.symm.trans hj)
    exact hmade.holds

/-- **The build of a function**, from a position on: its operations compute the word, and it stood
before each instruction with no more slots than at the end. -/
structure Finished (m : Machine) (K : Plan) (c : Config) (w : Word) (is : List Instruction) (p : Nat)
    (s₀ : Machine.State) (r : Routine) : Prop where
  built : Built m c w s₀ r
  reached : ∀ q, p ≤ q → q < is.length →
    ∃ r₁ s, Reached m K c is q s₀ r₁ s ∧ r₁.temporaries ≤ r.temporaries

/-- The instructions behind the first one. -/
theorem Complete.build_rest (h : Complete n W w r) {k : Nat} (hp : 0 < p)
    (hsize : r.instructions.size = p + k + 1)
    (hreached : Reached m (planOf W r.values) c r.instructions.toList p s₀ r₁ s) :
    Runs (((r.instructions.toList.drop p).zipIdx p).forM fun a => buildAt a.2 a.1) r₁
      fun _ r' => r₁.temporaries ≤ r'.temporaries ∧
        Finished m (planOf W r.values) c w r.instructions.toList p s₀ r' := by
  have hlt : p < r.instructions.toList.length := by
    rw [Array.length_toList]
    omega
  have hi : r.instructions[p]? = some r.instructions.toList[p] := by
    rw [← Array.getElem?_toList]
    exact List.getElem?_eq_getElem hlt
  rw [List.drop_eq_getElem_cons hlt, List.zipIdx_cons]
  induction k generalizing p r₁ s with
  | zero =>
    obtain ⟨q, i, x, -, hcount, hlast, hkind, husable, hword⟩ := h.closing
    obtain rfl : q = p := by omega
    obtain rfl := Option.some.inj (hi.symm.trans hlast)
    have hdrop : r.instructions.toList.drop (q + 1) = [] :=
      List.drop_eq_nil_of_le (by rw [Array.length_toList]; omega)
    rw [hdrop]
    refine .bind (buildAt_return hreached (List.getElem?_eq_getElem hlt)
      (by rw [Array.length_toList, hcount]) hkind husable) fun _ r' ⟨hle, hbuilt⟩ => ?_
    subst hword
    refine .pure ⟨hle, hbuilt, fun i hi hlt => ?_⟩
    rw [Array.length_toList] at hlt
    obtain rfl : i = q := by omega
    exact ⟨r₁, s, hreached, hle⟩
  | succ k ih =>
    refine .bind (h.buildAt_later hreached hp (by omega) hi) ?_
    rintro - r₂ ⟨hle, s', h₂⟩
    have hlt' : p + 1 < r.instructions.toList.length := by
      rw [Array.length_toList]
      omega
    have hrest := ih (p := p + 1) (Nat.succ_pos p) (by omega) h₂ hlt'
      (by rw [← Array.getElem?_toList]; exact List.getElem?_eq_getElem hlt')
    rw [List.drop_eq_getElem_cons hlt', List.zipIdx_cons]
    refine hrest.mono fun _ r' ⟨hle', hfinished⟩ => ?_
    have hle := Nat.le_trans hle hle'
    refine ⟨hle, hfinished.built, fun q hq hlt => ?_⟩
    rcases Nat.eq_or_lt_of_le hq with rfl | hq
    · exact ⟨r₁, s, hreached, hle⟩
    · exact hfinished.reached q hq hlt

end Instructions

/-- **The operations of a drafted function compute its word**, on each machine of its architecture
that finds the parameters in their registers. -/
theorem Complete.build_spec (h : Complete n W w r) (hm : r.config.architecture = m.architecture)
    (hregisters : r.registers = m.architecture.target.registerFile) (ht : r.temporaries = 0)
    (ho : r.operations = []) (hb : r.built = false)
    (hlen : n ≤ m.architecture.target.parameters.length)
    (hargs : ∀ x q, (x, q) ∈ (List.range n).zip m.architecture.target.parameters →
      s₀.registers q = W x) :
    Runs build r fun _ r' =>
      Finished m (planOf W r.values) r.config w r.instructions.toList 1 s₀ r' := by
  obtain ⟨last, -, -, hlast, hsize, -⟩ := h.closing
  obtain ⟨i, hi, -⟩ := h.opening
  have hreached := h.reached hm hregisters ht ho s₀
  have hlist : r.instructions.toList = i :: r.instructions.toList.drop 1 := by
    have hlt := (Array.getElem?_eq_some_iff.mp hi).1
    rw [← Array.getElem?_toList] at hi
    obtain ⟨hlt', rfl⟩ := List.getElem?_eq_some_iff.mp hi
    exact List.drop_eq_getElem_cons hlt'
  have hunused (q : Register) : r.registers.used.contains q = false := by
    rw [hregisters]
    exact RegisterSet.contains_empty q
  have hstart : Reached m (planOf W r.values) r.config r.instructions.toList 0 s₀
      { r with built := true } s₀ :=
    { hreached with sound := hreached.sound.congr rfl rfl rfl rfl rfl }
  unfold build
  refine .step (g := get) (a := r) rfl ?_
  rw [hb]
  refine .step (g := set _) (a := ⟨⟩) rfl ?_
  nth_rewrite 1 [hlist]
  rw [List.zipIdx_cons]
  refine .bind (h.buildAt_first hstart hi hlen hunused hargs) ?_
  rintro - r₁ ⟨-, s', h₁⟩
  exact (h.build_rest (k := last - 1) Nat.one_pos (by omega) h₁).mono fun _ _ hfinished => hfinished.2

end Straight

end Codegen
