import Codegen.Proofs.Compilation
import Codegen.Proofs.Frame.Convention
import Codegen.Proofs.Frame.Room
import Codegen.Proofs.Straight.Function
import Codegen.Proofs.Straight.Located
import Codegen.Proofs.Tree.Read
import Codegen.Surface.Elaborate

/-!
# The meaning of straight-line functions

A function with a straight-line body is refused if it has more parameters than there are registers
for them. Any other one is built: all registers that spilled values need are found, whatever there
is to be computed. It is compiled if its slots have room in a frame of 32 bits, and then its
operations return the word that its body stands for.

* `Machine.Passes`, `Straight.Implements`: **a function of words, as operations**;
* `Straight.exists_built`: a function is built for all words and machines at once;
* `Straight.implements_of_built`: the operations around and inside the frame;
* `Straight.function_implements`: **straight-line functions keep their meaning**.
-/

namespace Codegen

/-- The registers that carry arguments hold the words of the parameters. -/
def Machine.Passes (m : Machine) (ps : List VariableId) (σ : VariableId → Word)
    (s : Machine.State) : Prop :=
  ∀ v q, (v, q) ∈ ps.zip m.architecture.target.parameters → s.registers q = σ v

namespace Straight

open Machine Shape

variable {config : Config} {symbols : SymbolTable} {source : Codegen.Source} {info : FunctionInfo}
variable {body : List Shape} {c : ContextId} {start : Routine} {session : Session}

/-- **The operations compute a word from those of the parameters**: called with any of them, on any
machine of the architecture, they return with the word in the register of results. -/
def Implements (a : Architecture) (ps : List VariableId) (F : (VariableId → Word) → Word)
    (ops : List Operation) : Prop :=
  ∀ (m : Machine) (σ : VariableId → Word) (s : State), m.architecture = a → m.Passes ps σ s →
    ∃ t, m.Returns ops s t ∧ t.registers m.architecture.target.returnRegister = F σ

/-- The parameters by their numbers are in their registers. -/
theorem registers_of_passes {m : Machine} {ps : List VariableId} {σ : VariableId → Word}
    {s : State} (h : m.Passes ps σ s) {x : Nat} {q : Register}
    (hx : (x, q) ∈ (List.range ps.length).zip m.architecture.target.parameters) :
    x < ps.length ∧ s.registers q = incoming σ ps x := by
  obtain ⟨i, hi⟩ := List.mem_iff_getElem?.mp hx
  obtain ⟨hrange, hq⟩ := List.getElem?_zip_eq_some.mp hi
  obtain ⟨hlt, rfl⟩ := List.getElem?_eq_some_iff.mp hrange
  simp only [List.length_range, List.getElem_range] at hlt ⊢
  refine ⟨hlt, ?_⟩
  rw [incoming, List.getElem?_eq_getElem hlt]
  exact h _ q (List.mem_iff_getElem?.mpr ⟨i, List.getElem?_zip_eq_some.mpr
    ⟨List.getElem?_eq_getElem hlt, hq⟩⟩)

theorem exists_passes (a : Architecture) (ps : List VariableId) :
    ∃ (m : Machine) (σ : VariableId → Word) (s : State), m.architecture = a ∧ m.Passes ps σ s :=
  ⟨⟨a, fun _ => 0, fun _ => 0⟩, fun _ => 0, ⟨fun _ => 0, fun _ => 0, fun _ => 0, none⟩, rfl,
    fun _ _ _ => rfl⟩

/-! ## The build -/

/-- A routine that nothing was done for. -/
structure Untouched (config : Config) (symbols : SymbolTable) (source : Codegen.Source)
    (r : Routine) : Prop where
  tree : r.tree = source.tree
  function : r.function = source.function
  instructions : r.instructions = #[]
  values : r.values = .empty
  bindings : r.bindings = []
  registers : r.registers = config.architecture.target.registerFile
  temporaries : r.temporaries = 0
  operations : r.operations = []
  unbuilt : r.built = false
  symbols : r.symbols = symbols
  config : r.config = config.withThreads false

theorem untouched_of_start
    (h : Routine.start source.tree symbols source.function config = .ok start) :
    Untouched config symbols source start := by
  simp only [Routine.start, Arena.bind_eq_ok, Arena.pure_eq_ok] at h
  obtain ⟨symbol, -, rfl⟩ := h
  exact ⟨rfl, rfl, rfl, rfl, rfl, rfl, rfl, rfl, rfl, rfl, rfl⟩

theorem exists_start {name : String} {function : FunctionId} (tree : Tree)
    (h : symbols.symbol function = .ok name) (config : Config) :
    ∃ start, Routine.start tree symbols function config = .ok start := by
  rw [Routine.start, h]
  exact ⟨_, rfl⟩

section Source

variable (h : IsStraight symbols source.function info body)
  (hbody : source.tree.Shows (.node source.body (.scope c) body))
  (hlen : info.parameters.length ≤ config.architecture.target.parameters.length)
  (hstart : Untouched config symbols source start)
include h hbody hlen hstart

theorem lowers (σ : VariableId → Word) :
    Generating.Runs (Generating.lowerFunction source.body) start fun _ r' => ∃ W,
      Complete info.parameters.length W (returned σ body) r' ∧
      (∀ x < info.parameters.length, W x = incoming σ info.parameters x) ∧
      r'.instructions.size ≤ (ids body).length + 1 ∧ r' = { start with
        values := r'.values, instructions := r'.instructions, bindings := r'.bindings } := by
  refine lowerFunction_spec (by rwa [hstart.function]) hstart.symbols (by rwa [hstart.tree]) ?_
    hstart.instructions hstart.values hstart.bindings σ
  rw [Routine.target, Routine.architecture, hstart.config]
  exact hlen

/-- **A function is built**, for all words of its parameters and on all machines. -/
theorem exists_built : ∃ lowered built,
    Generating.lowerFunction source.body start = .ok () lowered ∧
    Generating.build lowered = .ok () built ∧
    ∀ m σ s, m.architecture = config.architecture → m.Passes info.parameters σ s →
      Built m (config.withThreads false) (returned σ body) s built := by
  -- the routine does not depend on the words
  obtain ⟨⟨⟩, lowered, hlower, -⟩ := lowers h hbody hlen hstart fun _ => 0
  have hbuild (m : Machine) (σ : VariableId → Word) (s : State)
      (hm : m.architecture = config.architecture) (hs : m.Passes info.parameters σ s) :
      Generating.Runs Generating.build lowered fun _ r' =>
        Built m (config.withThreads false) (returned σ body) s r' := by
    obtain ⟨⟨⟩, r, hr, W, hcomplete, hW, -, heq⟩ := lowers h hbody hlen hstart σ
    cases hlower.symm.trans hr
    have hconfig : lowered.config = config.withThreads false := by rw [heq, hstart.config]
    have hwords (x : Nat) (q : Register)
        (hx : (x, q) ∈ (List.range info.parameters.length).zip m.architecture.target.parameters) :
        s.registers q = W x := by
      obtain ⟨hlt, hword⟩ := registers_of_passes hs hx
      rw [hword, hW x hlt]
    refine (hcomplete.build_spec (by rw [hconfig, hm]; rfl) (by rw [heq, hm]; exact hstart.registers)
      (by rw [heq]; exact hstart.temporaries) (by rw [heq]; exact hstart.operations)
      (by rw [heq]; exact hstart.unbuilt) (by rwa [hm]) hwords).mono fun _ r' hfinished => ?_
    rw [← hconfig]
    exact hfinished.built
  obtain ⟨m, σ, s, hm, hs⟩ := exists_passes config.architecture info.parameters
  obtain ⟨⟨⟩, built, hbuilt, -⟩ := hbuild m σ s hm hs
  refine ⟨lowered, built, hlower, hbuilt, fun m σ s hm hs => ?_⟩
  obtain ⟨⟨⟩, r, hr, h⟩ := hbuild m σ s hm hs
  cases hbuilt.symm.trans hr
  exact h

end Source

/-! ## The operations -/

theorem parameter_kept {a : Architecture} {q : Register} (h : q ∈ a.target.parameters) :
    ¬ (q = a.target.stackPointer ∨ q = a.target.framePointer ∨ a.target.scratch? = some q) := by
  revert q
  cases a <;> decide

section Frame

variable {f : Frame} {instructions : List Instruction} {r : Routine} {ops : List Operation}
variable {ps : List VariableId} {F : (VariableId → Word) → Word}

/-- **Into the frame, through the body, and out of it.** -/
theorem implements_of_built (hb : ∀ m σ s, m.architecture = config.architecture →
      m.Passes ps σ s → Built m config (F σ) s r)
    (hl : Frame.layout config instructions r.body = .ok f)
    (hc : f.complete config r.body = .ok ops) : Implements config.architecture ps F ops := by
  intro m σ s₀ hm hs₀
  obtain ⟨s₁, hprologue, hkept⟩ := Frame.prologue_writesOnly hm f s₀
  obtain ⟨s, hlocated, hregisters⟩ := exists_located f m.architecture.target.stackPointer s₁
  have hs : m.Passes ps σ s := fun v q hq => by
    have hparameter := parameter_kept (List.of_mem_zip hq).2
    rw [hregisters, hkept q (by rwa [← hm]), hs₀ v q hq]
  obtain ⟨body, t, hbody, hexec, hplain, -, hword⟩ := (hb m σ s hm hs).body
  rw [hbody] at hl hc
  have hapart := apart_of_layout hl
  have hplaces (op : Operation) (hop : op ∈ body) : HasPlaces f op :=
    hasPlaces_of_layout hl (List.mem_append_left _ hop)
  rw [complete_eq hapart (by rwa [← hm]) hplaces, Except.ok.injEq] at hc
  obtain ⟨t', hinside, hlocated'⟩ := hlocated.execute hapart hplain hplaces hexec
  obtain ⟨u, hrestoring, hkept'⟩ := Frame.restoring_writesOnly hm (Frame.isSound_of_layout hl) t'
  refine ⟨u, ?_, ?_⟩
  · rw [hm] at hinside
    have hbody := (execute_append hprologue).trans hinside
    have hrun := (execute_append hbody).trans hrestoring
    rw [← hc, Frame.epilogue_eq, ← List.append_assoc]
    exact returns_of_execute hrun []
  · have hresult := Frame.result_not_kept (a := m.architecture) List.mem_cons_self
    rw [hkept' _ ?_, hlocated'.registers, hword]
    rw [← hm]
    tauto

theorem exists_complete {m : Machine} {w : Word} {s : State} (hb : Built m config w s r)
    (hm : m.architecture = config.architecture)
    (hl : Frame.layout config instructions r.body = .ok f) :
    ∃ ops, f.complete config r.body = .ok ops := by
  obtain ⟨body, -, hbody, -, hplain, -⟩ := hb.body
  rw [hbody] at hl ⊢
  exact ⟨_, complete_eq (apart_of_layout hl) (hm ▸ hplain) fun op hop =>
    hasPlaces_of_layout hl (List.mem_append_left _ hop)⟩

end Frame

/-! ## Functions -/

section Function

variable {name : String} (h : IsStraight symbols source.function info body)
include h

theorem lowers_refused (hstart : Untouched config symbols source start)
    (hlen : config.architecture.target.parameters.length < info.parameters.length) :
    ∃ r, Generating.lowerFunction source.body start = .error (.report (.tooManyArguments info.name
      info.parameters.length config.architecture.target.parameters.length)) r := by
  have htarget : start.target = config.architecture.target := by
    rw [Routine.target, Routine.architecture, hstart.config]
    rfl
  rw [← htarget] at hlen ⊢
  exact lowerFunction_refused (by rwa [hstart.function]) hstart.symbols hlen source.body

theorem length_le_of_compiled {o : Output} (w : Compiled config symbols source o) :
    info.parameters.length ≤ config.architecture.target.parameters.length := by
  by_contra hlen
  obtain ⟨r, hr⟩ := lowers_refused h (untouched_of_start w.started) (Nat.lt_of_not_le hlen)
  cases hr.symm.trans w.lowers

/-- **A function with too many parameters** is refused. -/
theorem function_refused (hname : symbols.symbol source.function = .ok name) (binary : Bool)
    (session : Session)
    (hlen : config.architecture.target.parameters.length < info.parameters.length) :
    ∃ session', Compiling.function config binary symbols source session = .error (.report
      (.tooManyArguments info.name info.parameters.length
        config.architecture.target.parameters.length)) session' := by
  obtain ⟨start, hstart⟩ := exists_start source.tree hname config
  obtain ⟨r, hr⟩ := lowers_refused h (untouched_of_start hstart) hlen
  simp only [Compiling.function, Compiling.bind_eq_error, Compiling.require_eq_ok,
    Compiling.require_eq_error, Compiling.advance_eq_error]
  exact ⟨_, .inr ⟨start, _, ⟨hstart, rfl⟩, .inr ⟨_, _, rfl, .inl ⟨⟨r, hr⟩, rfl⟩⟩⟩⟩

variable (hbody : source.tree.Shows (.node source.body (.scope c) body))
include hbody

/-- **Any other function** is lowered and built, and can be put into its frame. -/
theorem exists_buildsTo (hname : symbols.symbol source.function = .ok name)
    (hlen : info.parameters.length ≤ config.architecture.target.parameters.length) :
    ∃ built, source.BuildsTo config symbols built ∧ built.config = config.withThreads false ∧
      ∀ f, Frame.layout built.config built.instructions.toList built.body = .ok f →
        ∃ ops, f.complete built.config built.body = .ok ops := by
  obtain ⟨start, hstart⟩ := exists_start source.tree hname config
  obtain ⟨lowered, built, hlower, hbuild, hb⟩ :=
    exists_built h hbody hlen (untouched_of_start hstart)
  obtain ⟨m, σ, s, hm, hs⟩ := exists_passes config.architecture info.parameters
  have hb := hb m σ s hm hs
  refine ⟨built, ⟨start, lowered, hstart, hlower, hbuild⟩, hb.config, fun f hl => ?_⟩
  rw [hb.config] at hl ⊢
  exact exists_complete hb hm hl

/-- **What a straight-line function is compiled to** computes the word of its body. -/
theorem implements_of_compiled {o : Output} (w : Compiled config symbols source o) :
    Implements config.architecture info.parameters (returned · body) o.operations := by
  obtain ⟨lowered, built, hlower, hbuild, hb⟩ :=
    exists_built h hbody (length_le_of_compiled h w) (untouched_of_start w.started)
  cases hlower.symm.trans w.lowers
  cases hbuild.symm.trans w.builds
  obtain ⟨m, σ, s, hm, hs⟩ := exists_passes config.architecture info.parameters
  have hl := w.laid
  have hc := w.completes
  rw [(hb m σ s hm hs).config] at hl hc
  have hi : Implements (config.withThreads false).architecture _ _ _ :=
    implements_of_built hb hl hc
  exact hi

/-- Nothing is reported of a function with few parameters but what its machine code lacks. -/
theorem report_of_function {binary : Bool} {e : CompileError} {session' : Session}
    (hname : symbols.symbol source.function = .ok name)
    (hlen : info.parameters.length ≤ config.architecture.target.parameters.length)
    (he : Compiling.function config binary symbols source session = .error (.report e) session') :
    binary = true ∧ ∃ ops constants,
      machineCode config.architecture ops constants = .error (.report e) := by
  obtain ⟨built, hbuilt, hconfig, hcomplete⟩ := exists_buildsTo h hbody hname hlen
  obtain hl | ⟨f, hl, hf | ⟨ops, -, hbinary, hcode⟩⟩ :=
    Routine.output_eq_error (hbuilt.output_eq_error he)
  · exact absurd hl (Frame.layout_silent _ _ _ e)
  · obtain ⟨ops, hops⟩ := hcomplete f hl
    cases hops.symm.trans hf
  · refine ⟨hbinary, ops, built.constants, ?_⟩
    rw [Routine.architecture, hconfig] at hcode
    exact hcode

omit h hbody in
/-- A function whose slots have no room cannot be compiled. -/
theorem crashes_of_not_hasRoom {built : Routine} (hbuilt : source.BuildsTo config symbols built)
    (hroom : ¬Frame.HasRoom built.config built.instructions.toList built.body) (binary : Bool)
    (session : Session) :
    ∃ c session', Compiling.function config binary symbols source session =
      .error (.crash c) session' := by
  obtain ⟨c, hl⟩ := Frame.layout_crashes hroom
  have ho : built.output binary = .error (.crash c) := by
    rw [Routine.output, hl]
    rfl
  exact ⟨c, hbuilt.exists_error ho session⟩

/-- **Straight-line functions keep their meaning.** A function with too many parameters is refused.
Any other one is lowered and built. It is compiled if its slots have room in a frame of 32 bits, and
only then; nothing else is reported but what the machine code lacks, where that is asked for. All
that a function is compiled to computes the word of its body. -/
theorem function_implements (hname : symbols.symbol source.function = .ok name) (config : Config)
    (session : Session) :
    (∀ binary o session', Compiling.function config binary symbols source session = .ok o session' →
      Implements config.architecture info.parameters (returned · body) o.operations) ∧
    (∀ binary e session',
      Compiling.function config binary symbols source session = .error (.report e) session' →
      (config.architecture.target.parameters.length < info.parameters.length ∧
        e = .tooManyArguments info.name info.parameters.length
          config.architecture.target.parameters.length) ∨
      binary = true ∧ ∃ ops constants,
        machineCode config.architecture ops constants = .error (.report e)) ∧
    (config.architecture.target.parameters.length < info.parameters.length → ∀ binary, ∃ session',
      Compiling.function config binary symbols source session = .error (.report
        (.tooManyArguments info.name info.parameters.length
          config.architecture.target.parameters.length)) session') ∧
    (info.parameters.length ≤ config.architecture.target.parameters.length →
      ∃ built, source.BuildsTo config symbols built ∧
        if Frame.HasRoom config built.instructions.toList built.body then
          ∃ o session', Compiling.function config false symbols source session = .ok o session'
        else ∀ binary, ∃ c session',
          Compiling.function config binary symbols source session = .error (.crash c) session') := by
  refine ⟨fun binary o session' ho => ?_, fun binary e session' he => ?_,
    fun hlen binary => function_refused h hname binary session hlen, fun hlen => ?_⟩
  · obtain ⟨w⟩ := Compiling.exists_compiled ho
    exact implements_of_compiled h hbody w
  · rcases Nat.lt_or_ge config.architecture.target.parameters.length info.parameters.length with
      hlen | hlen
    · obtain ⟨_, hrefused⟩ := function_refused h hname binary session hlen
      cases he.symm.trans hrefused
      exact .inl ⟨hlen, rfl⟩
    · exact .inr (report_of_function h hbody hname hlen he)
  · obtain ⟨built, hbuilt, hconfig, hcomplete⟩ := exists_buildsTo h hbody hname hlen
    refine ⟨built, hbuilt, ?_⟩
    have hroom : Frame.HasRoom config built.instructions.toList built.body ↔
        Frame.HasRoom built.config built.instructions.toList built.body := by
      rw [hconfig]
      rfl
    split
    next hr =>
      obtain ⟨f, hl, -⟩ := Frame.exists_layout_of_room (hroom.mp hr)
      obtain ⟨ops, hc⟩ := hcomplete f hl
      obtain ⟨o, ho⟩ : ∃ o, built.output false = .ok o :=
        ⟨_, Arena.bind_eq_ok.mpr ⟨f, hl, Arena.bind_eq_ok.mpr ⟨ops, hc, rfl⟩⟩⟩
      exact ⟨o, hbuilt.exists_ok ho session⟩
    next hr => exact fun binary => crashes_of_not_hasRoom hbuilt (mt hroom.mpr hr) binary session

end Function

/-! ## A function of two words -/

open Surface in
/-- A function with a variable, of which one parameter is assigned. -/
def scaling : ProgramForm where
  globals := []
  types := []
  functions := [{
    name := "scale"
    key := "scale"
    inside? := none
    parameters := [⟨"a", some "i64"⟩, ⟨"b", some "i64"⟩]
    returnType? := some "i64"
    body? := some [
      .declare "x" (some "i64"),
      .operator .assign (.reference "x") (.operator .multiply
        (.parenthesis [.operator .add (.reference "a") (.number (.integer 5) .i64)])
        (.reference "b")),
      .operator .assign (.reference "b") (.operator .subtract (.reference "x") (.reference "a")),
      .retValue (.operator .add (.operator .multiply (.reference "b") (.number (.integer 8) .i64))
        (.reference "x"))] }]

/-- The words of the parameters. -/
def twoAndThree (v : VariableId) : Word := if v = 0 then 2 else 3

/-- The body is a straight-line one. It is compiled for x64, and has no machine code for arm64. -/
theorem scaling_checked : ((Surface.load scaling).toOption.any fun l =>
    l.bodies.any fun b =>
      isStraight l.symbols b.function (b.tree.shape 9 b.body).parts &&
      (l.symbols.functionInfo b.function).toOption.any (·.parameters == [0, 1]) &&
      b.tree.isShown 9 (b.tree.shape 9 b.body) && b.tree.kind b.body == .scope 1 &&
      (l.symbols.symbol b.function).toOption == some "_V5scalexx_rx" &&
      returned twoAndThree (b.tree.shape 9 b.body).parts == 173 &&
      (match Compiling.function ⟨.x64, false, false⟩ false l.symbols b.toSource Session.empty with
        | .ok .. => true
        | .error .. => false) &&
      (match Compiling.function ⟨.arm64, false, false⟩ true l.symbols b.toSource Session.empty with
        | .ok .. => false
        | .error e _ => e == .report (.unsupported .binaryOutput .arm64))) = true := by
  decide +kernel

/-- So it is compiled, and called with two and three it returns what its body stands for. -/
theorem function_implements_scaling : ∃ (symbols : SymbolTable) (source : Codegen.Source)
    (info : FunctionInfo) (body : List Shape), IsStraight symbols source.function info body ∧
      source.tree.Shows (.node source.body (.scope 1) body) ∧
      symbols.symbol source.function = .ok "_V5scalexx_rx" ∧
      ∃ o session, Compiling.function ⟨.x64, false, false⟩ false symbols source Session.empty =
          .ok o session ∧
        ∀ (m : Machine) (s : State), m.architecture = .x64 → s.registers (.general 7) = 2 →
          s.registers (.general 6) = 3 →
          ∃ t, m.Returns o.operations s t ∧ t.registers (.general 0) = 173 := by
  obtain ⟨l, -, hl⟩ := (Option.any_eq_true _ _).mp scaling_checked
  obtain ⟨b, -, hb⟩ := List.any_eq_true.mp hl
  simp only [Bool.and_eq_true, beq_iff_eq] at hb
  obtain ⟨⟨⟨⟨⟨⟨⟨hstraight, hparameters⟩, hshown⟩, hkind⟩, hsymbol⟩, hword⟩, hcompiles⟩, -⟩ := hb
  obtain ⟨info, hstraight⟩ := straight_of_isStraight hstraight
  have hparameters : info.parameters = [0, 1] := by
    simpa [hstraight.found, Except.toOption] using hparameters
  have hshown : b.tree.Shows (.node b.body (.scope 1) (b.tree.shape 9 b.body).parts) :=
    hkind ▸ Tree.shows_of_isShown hshown
  have hsymbol : l.symbols.symbol b.function = .ok "_V5scalexx_rx" := by
    cases h : l.symbols.symbol b.function <;> simp_all [Except.toOption]
  obtain ⟨himplements, -⟩ := function_implements hstraight hshown hsymbol
    ⟨.x64, false, false⟩ Session.empty
  split at hcompiles
  next o session ho =>
    refine ⟨l.symbols, b.toSource, info, _, hstraight, hshown, hsymbol, o, session, ho,
      fun m s hm h₁ h₂ => ?_⟩
    have hpasses : m.Passes info.parameters twoAndThree s := by
      rw [Machine.Passes, hm, hparameters]
      simp only [Architecture.target, Target.x64, List.map_cons, List.zip_cons_cons,
        List.zip_nil_left, List.mem_cons, List.not_mem_nil, Prod.mk.injEq, or_false]
      rintro v q (⟨rfl, rfl⟩ | ⟨rfl, rfl⟩)
      · exact h₁
      · exact h₂
    obtain ⟨t, ht, hresult⟩ := himplements false o session ho m twoAndThree s hm hpasses
    rw [hm] at hresult
    exact ⟨t, ht, hresult.trans hword⟩
  next => cases hcompiles

end Straight

end Codegen
