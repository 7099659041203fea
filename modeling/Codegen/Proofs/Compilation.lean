import Codegen.Compilation
import Codegen.Proofs.Value.Arena
import Codegen.Surface.Elaborate

/-!
# What a compilation did

A function is lowered, built and laid out. What is said of its lowering alone does not ask whether
the later stages succeed.

* `Lowered`: **a function whose lowering succeeded**, with its routine before and after;
* `Surface.ProgramForm.lowering?`: the first function of a program, if its lowering succeeds;
* `Compiled`: **the stages of a compilation that succeeded**;
* `Compiling.exists_compiled`: a compilation that gives an output went through them;
* `Source.BuildsTo`, `Source.BuildsTo.output_eq_error`: **a compilation whose output fails**;
* `Surface.ProgramForm.compiling?`: the output of the first function of a program;
* `Frame.forall_complete`: what holds of every operation of a function.
-/

namespace Codegen

/-! ## Lowering -/

/-- **A function whose lowering succeeded.** -/
structure Lowered where
  source : Source
  symbols : SymbolTable
  config : Config
  /-- The routine before its first instruction. -/
  start : Routine
  /-- The routine behind its last instruction. -/
  routine : Routine
  started : Routine.start source.tree symbols source.function config = .ok start
  lowers : Generating.lowerFunction source.body start = .ok () routine

/-- The first function of a program and its routine, if its lowering succeeds. -/
def Surface.ProgramForm.lowering? (p : ProgramForm) (config : Config) : Option (Source × Routine) :=
  match load p with
  | .error _ => none
  | .ok l =>
    match l.bodies with
    | [] => none
    | b :: _ =>
      match Routine.start b.tree l.symbols b.function config with
      | .error _ => none
      | .ok start =>
        match Generating.lowerFunction b.body start with
        | .error .. => none
        | .ok () routine => some (b.toSource, routine)

theorem Surface.ProgramForm.exists_lowered {p : ProgramForm} {config : Config} {s : Source}
    {r : Routine} (h : p.lowering? config = some (s, r)) :
    ∃ w : Lowered, w.source = s ∧ w.routine = r := by
  unfold lowering? at h
  split at h
  next => cases h
  next l _ =>
    split at h
    next => cases h
    next b _ _ =>
      split at h
      next => cases h
      next start hs =>
        split at h
        next => cases h
        next hl =>
          cases h
          exact ⟨⟨b.toSource, l.symbols, config, start, _, hs, hl⟩, rfl, rfl⟩

/-! ## All stages -/

variable {config : Config} {binary : Bool} {symbols : SymbolTable} {s : Source} {o : Output}
variable {session session' : Session}

/-- **The stages of a compilation that succeeded.** -/
structure Compiled (config : Config) (symbols : SymbolTable) (s : Source) (o : Output) where
  start : Routine
  /-- The routine behind its last instruction. -/
  lowered : Routine
  /-- The routine with the operations of all instructions. -/
  built : Routine
  frame : Frame
  started : Routine.start s.tree symbols s.function config = .ok start
  lowers : Generating.lowerFunction s.body start = .ok () lowered
  builds : Generating.build lowered = .ok () built
  laid : Frame.layout built.config built.instructions.toList built.body = .ok frame
  completes : frame.complete built.config built.body = .ok o.operations

namespace Compiling

theorem bind_eq_ok {α β : Type} {g : Compiling α} {f : α → Compiling β} {b : β} :
    (g >>= f) session = .ok b session' ↔
      ∃ a between, g session = .ok a between ∧ f a between = .ok b session' := by
  change EStateM.bind g f session = _ ↔ _
  rw [EStateM.bind]
  cases g session with
  | ok a between =>
    constructor
    · intro h
      exact ⟨a, between, rfl, h⟩
    · rintro ⟨_, _, h, hf⟩
      cases h
      exact hf
  | error e between => simp

theorem bind_eq_error {α β : Type} {g : Compiling α} {f : α → Compiling β} {e : Fault} :
    (g >>= f) session = .error e session' ↔ g session = .error e session' ∨
      ∃ a between, g session = .ok a between ∧ f a between = .error e session' := by
  change EStateM.bind g f session = _ ↔ _
  rw [EStateM.bind]
  cases g session with
  | ok a between =>
    constructor
    · exact fun h => .inr ⟨a, between, rfl, h⟩
    · rintro (h | ⟨_, _, h, hf⟩)
      · cases h
      · cases h
        exact hf
  | error e between => simp

theorem require_eq_ok {α : Type} {x : Except Fault α} {a : α} :
    require x session = .ok a session' ↔ x = .ok a ∧ session' = session := by
  cases x with
  | ok b =>
    change EStateM.Result.ok b session = _ ↔ _
    simp [eq_comm]
  | error e =>
    change EStateM.Result.error e session = _ ↔ _
    simp

theorem require_eq_error {α : Type} {x : Except Fault α} {e : Fault} :
    require x session = .error e session' ↔ x = .error e ∧ session' = session := by
  cases x with
  | ok b =>
    change EStateM.Result.ok b session = _ ↔ _
    simp
  | error e =>
    change EStateM.Result.error e session = _ ↔ _
    simp [eq_comm]

theorem advance_eq_ok {g : Generating Unit} {r r' : Routine} :
    advance g r session = .ok r' session' ↔ g r = .ok () r' ∧ session' = session := by
  unfold advance
  cases g r with
  | ok u q =>
    change EStateM.Result.ok q session = _ ↔ _
    simp [eq_comm]
  | error e q =>
    change EStateM.Result.error e session = _ ↔ _
    simp

theorem advance_eq_error {g : Generating Unit} {r : Routine} {e : Fault} :
    advance g r session = .error e session' ↔ (∃ q, g r = .error e q) ∧ session' = session := by
  unfold advance
  cases g r with
  | ok u q =>
    change EStateM.Result.ok q session = _ ↔ _
    simp
  | error e q =>
    change EStateM.Result.error e session = _ ↔ _
    simp [eq_comm]

end Compiling

theorem Routine.output_eq_ok {r : Routine} (h : r.output binary = .ok o) :
    ∃ frame, Frame.layout r.config r.instructions.toList r.body = .ok frame ∧
      frame.complete r.config r.body = .ok o.operations := by
  rw [Routine.output, Arena.bind_eq_ok] at h
  obtain ⟨frame, hframe, h⟩ := h
  rw [Arena.bind_eq_ok] at h
  obtain ⟨operations, hoperations, h⟩ := h
  refine ⟨frame, hframe, ?_⟩
  dsimp only at h
  split at h
  all_goals
    obtain ⟨bytes?, -, h⟩ := Arena.bind_eq_ok.mp h
    cases h
    exact hoperations

theorem Compiling.exists_compiled
    (h : Compiling.function config binary symbols s session = .ok o session') :
    Nonempty (Compiled config symbols s o) := by
  simp only [Compiling.function, bind_eq_ok, require_eq_ok, advance_eq_ok] at h
  obtain ⟨start, _, ⟨hstart, -⟩, _, _, -, lowered, _, ⟨hlower, -⟩, _, _, -, built, _, ⟨hbuild, -⟩,
    o', _, ⟨ho, -⟩, _, _, -, h⟩ := h
  cases h
  obtain ⟨frame, hframe, hcomplete⟩ := Routine.output_eq_ok ho
  exact ⟨⟨start, lowered, built, frame, hstart, hlower, hbuild, hframe, hcomplete⟩⟩

/-- An output that fails has no frame, or an operation that does not fit into it, or no machine
code. -/
theorem Routine.output_eq_error {r : Routine} {e : Fault} (h : r.output binary = .error e) :
    Frame.layout r.config r.instructions.toList r.body = .error e ∨
      ∃ frame, Frame.layout r.config r.instructions.toList r.body = .ok frame ∧
        (frame.complete r.config r.body = .error e ∨
          ∃ operations, frame.complete r.config r.body = .ok operations ∧ binary = true ∧
            machineCode r.architecture operations r.constants = .error e) := by
  have failed {α β : Type} {x : Except Fault α} {k : α → Except Fault β}
      (h : (x >>= k) = .error e) : x = .error e ∨ ∃ a, x = .ok a ∧ k a = .error e := by
    cases x with
    | ok a => exact .inr ⟨a, rfl, h⟩
    | error e' =>
      cases h
      exact .inl rfl
  rw [Routine.output] at h
  refine (failed h).imp_right ?_
  rintro ⟨frame, hframe, h⟩
  refine ⟨frame, hframe, (failed h).imp_right ?_⟩
  rintro ⟨operations, hoperations, h⟩
  refine ⟨operations, hoperations, ?_⟩
  cases binary with
  | false => cases h
  | true =>
    obtain h | ⟨bytes?, -, h⟩ := failed h
    · refine ⟨rfl, ?_⟩
      cases hm : machineCode r.architecture operations r.constants with
      | ok bytes =>
        rw [hm] at h
        cases h
      | error e' =>
        rw [hm] at h
        cases h
        rfl
    · cases h

/-- The function is lowered, and all its instructions are built. -/
def Source.BuildsTo (s : Source) (config : Config) (symbols : SymbolTable) (built : Routine) :
    Prop :=
  ∃ start lowered, Routine.start s.tree symbols s.function config = .ok start ∧
    Generating.lowerFunction s.body start = .ok () lowered ∧
    Generating.build lowered = .ok () built

namespace Source.BuildsTo

variable {built : Routine} {e : Fault}

theorem exists_ok (h : s.BuildsTo config symbols built) (ho : built.output binary = .ok o)
    (session : Session) :
    ∃ session', Compiling.function config binary symbols s session = .ok o session' := by
  obtain ⟨start, lowered, hstart, hlower, hbuild⟩ := h
  simp only [Compiling.function, Compiling.bind_eq_ok, Compiling.require_eq_ok,
    Compiling.advance_eq_ok]
  exact ⟨_, start, _, ⟨hstart, rfl⟩, _, _, rfl, lowered, _, ⟨hlower, rfl⟩, _, _, rfl, built, _,
    ⟨hbuild, rfl⟩, o, _, ⟨ho, rfl⟩, _, _, rfl, rfl⟩

theorem exists_error (h : s.BuildsTo config symbols built) (ho : built.output binary = .error e)
    (session : Session) :
    ∃ session', Compiling.function config binary symbols s session = .error e session' := by
  obtain ⟨start, lowered, hstart, hlower, hbuild⟩ := h
  simp only [Compiling.function, Compiling.bind_eq_error, Compiling.require_eq_ok,
    Compiling.require_eq_error, Compiling.advance_eq_ok, Compiling.advance_eq_error]
  exact ⟨_, .inr ⟨start, _, ⟨hstart, rfl⟩, .inr ⟨_, _, rfl, .inr ⟨lowered, _, ⟨hlower, rfl⟩,
    .inr ⟨_, _, rfl, .inr ⟨built, _, ⟨hbuild, rfl⟩, .inl ⟨ho, rfl⟩⟩⟩⟩⟩⟩⟩

/-- A compilation of a function that is built fails with its output only. -/
theorem output_eq_error (h : s.BuildsTo config symbols built)
    (he : Compiling.function config binary symbols s session = .error e session') :
    built.output binary = .error e := by
  cases ho : built.output binary with
  | ok o =>
    obtain ⟨_, hok⟩ := h.exists_ok ho session
    cases he.symm.trans hok
  | error e' =>
    obtain ⟨_, herror⟩ := h.exists_error ho session
    cases he.symm.trans herror
    rfl

end Source.BuildsTo

/-- The output of the first function of a program, if it is compiled. -/
def Surface.ProgramForm.compiling? (p : ProgramForm) (config : Config) : Option Output :=
  match load p with
  | .error _ => none
  | .ok l =>
    match l.bodies with
    | [] => none
    | b :: _ =>
      match Compiling.function config false l.symbols b.toSource Session.empty with
      | .error .. => none
      | .ok o _ => some o

theorem Surface.ProgramForm.exists_function {p : ProgramForm} (h : p.compiling? config = some o) :
    ∃ symbols s session,
      Compiling.function config false symbols s Session.empty = .ok o session := by
  unfold compiling? at h
  split at h
  next => cases h
  next l _ =>
    split at h
    next => cases h
    next b _ _ =>
      split at h
      next => cases h
      next session hf =>
        cases h
        exact ⟨l.symbols, b.toSource, session, hf⟩

namespace Frame

variable {f : Frame} {P : Operation → Prop} {body os : List Operation}

/-- What holds of the operations around the body, and of those of the body once their slots have
places, holds of every operation of a function. -/
theorem forall_complete (hp : ∀ o ∈ f.prologue config, P o) (he : ∀ o ∈ f.epilogue config, P o)
    (hb : ∀ o ∈ body, o.opcode ≠ .ret → ∀ operands,
      o.operands.mapM (f.locate config.architecture.target.stackPointer) = .ok operands →
        P ⟨o.opcode, operands⟩)
    (h : f.complete config body = .ok os) : ∀ o ∈ os, P o := by
  have enclosed {body : List Operation} {oss : List (List Operation)}
      (hb : ∀ o ∈ body, ∀ os, f.enclose config o = .ok os → ∀ o ∈ os, P o)
      (h : body.mapM (f.enclose config) = .ok oss) : ∀ o ∈ oss.flatten, P o := by
    induction body generalizing oss with
    | nil =>
      cases h
      simp
    | cons o body ih =>
      simp only [List.mapM_cons, Arena.bind_eq_ok, Arena.pure_eq_ok] at h
      obtain ⟨os, ho, oss, hoss, rfl⟩ := h
      rw [List.flatten_cons, List.forall_mem_append]
      exact ⟨hb o List.mem_cons_self os ho, ih (fun o ho => hb o (List.mem_cons_of_mem _ ho)) hoss⟩
  simp only [complete, Arena.bind_eq_ok, Arena.pure_eq_ok] at h
  obtain ⟨oss, hoss, rfl⟩ := h
  rw [List.forall_mem_append]
  refine ⟨hp, enclosed (fun o ho os h => ?_) hoss⟩
  unfold enclose at h
  split at h
  next =>
    cases h
    exact he
  next hret =>
    obtain ⟨operands, hoperands, h⟩ := Arena.bind_eq_ok.mp h
    cases h
    simpa using hb o ho hret operands hoperands

end Frame

end Codegen
