import Codegen.Batch
import Codegen.Proofs.Stream.Ending
import Mathlib

/-!
# Reports

A report tells of each function what became of it when it was compiled alone: its output or its
message. The order of the sources is kept, and the statistics are merged in it, so the function that
is named as the largest is the first of those with the most operations.

* `Compiling.function_session`: the output of a function does not depend on the session;
* `Batch.Reports`: **what a report says**;
* `Batch.compileAll_eq`: **what a phase reports is the report on its batch**.
-/

namespace Codegen

variable {config : Config} {binary : Bool} {symbols : SymbolTable} {s : Source} {o : Output}
variable {session session' : Session}

/-! ## One function -/

theorem Compiling.function_session
    (h : Compiling.function config binary symbols s session = .ok o session') (other : Session) :
    ∃ other', Compiling.function config binary symbols s other = .ok o other' := by
  simp only [Compiling.function, bind_eq_ok, require_eq_ok, advance_eq_ok] at h ⊢
  obtain ⟨r₀, _, ⟨h₀, -⟩, _, _, -, r₁, _, ⟨h₁, -⟩, _, _, -, r₂, _, ⟨h₂, -⟩, o', _, ⟨h₃, -⟩, _, _, -,
    h⟩ := h
  cases h
  exact ⟨_, r₀, _, ⟨h₀, rfl⟩, _, _, rfl, r₁, _, ⟨h₁, rfl⟩, _, _, rfl, r₂, _, ⟨h₂, rfl⟩, o, _,
    ⟨h₃, rfl⟩, _, _, rfl, rfl⟩

/-- A session counts one function for one. -/
structure Statistics.CountsOne (t : Statistics) (o : Output) : Prop where
  functions : t.functions = 1
  operations : t.operations = o.operations.length
  largestOperations : t.largestOperations = o.operations.length
  largestName : t.largestName = o.symbol
  /-- So a function is larger than none. -/
  nonempty : 0 < o.operations.length

theorem compileAlone_counts {t : Statistics}
    (h : compileAlone config binary symbols s = .ok (o, t)) : t.CountsOne o := by
  unfold compileAlone at h
  split at h
  next o' session hf =>
    obtain ⟨rfl, rfl⟩ : o' = o ∧ session.statistics = t := by simpa using h
    obtain ⟨w⟩ := Compiling.exists_compiled hf
    have hpos : 0 < o'.operations.length := List.length_pos_of_ne_nil w.operations_ne_nil
    simp only [Compiling.function, Compiling.bind_eq_ok, Compiling.require_eq_ok,
      Compiling.advance_eq_ok] at hf
    obtain ⟨r₀, _, ⟨-, rfl⟩, _, _, h₀, r₁, _, ⟨-, rfl⟩, _, _, h₁, r₂, _, ⟨-, rfl⟩, _, _, ⟨-, rfl⟩, _,
      _, h₂, h⟩ := hf
    cases h₀
    cases h₁
    cases h₂
    cases h
    refine ⟨?_, ?_, ?_, ?_, hpos⟩ <;> simp [Session.count, Session.setCurrent, Session.empty,
      Statistics.record, Statistics.noteLargest, Statistics.zero, hpos]
  next => cases h

/-! ## Many functions -/

/-- The statistics of functions that were compiled alone. -/
def Statistics.merged (done : List (Output × Statistics)) : Statistics :=
  done.foldl (fun t d => t.merge d.2) .zero

/-- The number of operations and the name of the largest output. -/
def largestOf (os : List Output) : Nat × String :=
  match os.argmax (·.operations.length) with
  | some o => (o.operations.length, o.symbol)
  | none => (0, "")

namespace Statistics

variable {done : List (Output × Statistics)}

@[simp] theorem noteLargest_functions (t : Statistics) (name : String) (n : Nat) :
    (t.noteLargest name n).functions = t.functions := by
  unfold noteLargest
  split <;> rfl

@[simp] theorem noteLargest_operations (t : Statistics) (name : String) (n : Nat) :
    (t.noteLargest name n).operations = t.operations := by
  unfold noteLargest
  split <;> rfl

theorem merged_concat (done : List (Output × Statistics)) (d : Output × Statistics) :
    merged (done ++ [d]) = (merged done).merge d.2 := by
  simp [merged, List.foldl_append]

theorem merged_counts (h : ∀ d ∈ done, d.2.CountsOne d.1) :
    (merged done).functions = done.length ∧
      (merged done).operations = (done.map (·.1.operations.length)).sum := by
  induction done using List.reverseRecOn with
  | nil => exact ⟨rfl, rfl⟩
  | append_singleton done d ih =>
    simp only [List.forall_mem_append, List.forall_mem_singleton] at h
    obtain ⟨h₁, h₂⟩ := ih h.1
    rw [merged_concat]
    simp [merge, h₁, h₂, h.2.functions, h.2.operations]

/-- **The first of the largest functions is kept.** -/
theorem merged_largest (h : ∀ d ∈ done, d.2.CountsOne d.1) :
    ((merged done).largestOperations, (merged done).largestName) =
      largestOf (done.map (·.1)) := by
  induction done using List.reverseRecOn with
  | nil => rfl
  | append_singleton done d ih =>
    simp only [List.forall_mem_append, List.forall_mem_singleton] at h
    have ih := ih h.1
    rw [merged_concat, List.map_append, List.map_singleton]
    unfold largestOf at ih ⊢
    rw [List.argmax_concat]
    cases hmax : (done.map (·.1)).argmax (·.operations.length) with
    | none =>
      rw [hmax] at ih
      simp only [Prod.mk.injEq] at ih
      simp [merge, noteLargest, ih, h.2.largestOperations, h.2.largestName, h.2.nonempty]
    | some o =>
      rw [hmax] at ih
      simp only [Prod.mk.injEq] at ih
      by_cases hlt : o.operations.length < d.1.operations.length
      · simp [merge, noteLargest, ih, h.2.largestOperations, h.2.largestName, hlt]
      · simp [merge, noteLargest, ih, h.2.largestOperations, hlt]

end Statistics

namespace Batch

/-- The output of a function, if it is compiled. -/
def output? (b : Batch) (s : Source) : Option Output := (b.outcome s).toOption.map (·.1)

/-- The message of a function that fails. -/
def message? (b : Batch) (s : Source) : Option String := (b.ending s).message?

/-- The functions that are compiled, with what their sessions counted. -/
def compiled (b : Batch) : List (Output × Statistics) :=
  b.sources.filterMap fun s => (b.outcome s).toOption

/-- **What a report says.** -/
structure Reports (b : Batch) (r : Report) : Prop where
  outputs : r.outputs = b.sources.filterMap b.output?
  errors : r.errors = b.sources.filterMap b.message?
  /-- A function has an output or a message, and not both. -/
  either : ∀ s, (b.message? s).isSome = (b.output? s).isNone
  /-- The output is the one of the function in any session. -/
  output : ∀ s o, b.output? s = some o ↔ ∀ session, ∃ session',
    Compiling.function b.config b.binary b.symbols s session = .ok o session'
  /-- The message tells of the fault. -/
  message : ∀ s m, b.message? s = some m ↔ ∃ e session',
    Compiling.function b.config b.binary b.symbols s .empty = .error e session' ∧
      (endingOf b.symbols s (.error e)).message? = some m
  statistics : r.statistics = .merged b.compiled
  functions : r.statistics.functions = r.outputs.length
  operations : r.statistics.operations = (r.outputs.map (·.operations.length)).sum
  /-- The first of the largest functions is named. -/
  largest : (r.statistics.largestOperations, r.statistics.largestName) = largestOf r.outputs

variable {b : Batch} {t : Statistics}

/-! ## One function of a batch -/

theorem output?_eq_some : b.output? s = some o ↔ ∃ t, b.outcome s = .ok (o, t) := by
  unfold output?
  cases b.outcome s with
  | ok d =>
    obtain ⟨o', t⟩ := d
    simp [Except.toOption]
  | error e => simp [Except.toOption]

theorem output?_eq_none : b.output? s = none ↔ ∃ f, b.outcome s = .error f := by
  unfold output?
  cases b.outcome s <;> simp [Except.toOption]

theorem isSome_message? : (b.message? s).isSome = (b.output? s).isNone := by
  unfold message? ending output?
  cases b.outcome s with
  | ok d => rfl
  | error e =>
    cases e with
    | crash c => rfl
    | report e =>
      unfold endingOf
      dsimp only
      split <;> rfl

theorem output?_eq_some_iff : b.output? s = some o ↔ ∀ session, ∃ session',
    Compiling.function b.config b.binary b.symbols s session = .ok o session' := by
  rw [output?_eq_some, outcome, compileAlone]
  constructor
  · rintro ⟨t, h⟩
    split at h
    next o' session' hf =>
      obtain ⟨rfl, -⟩ : o' = o ∧ session'.statistics = t := by simpa using h
      exact Compiling.function_session hf
    next => cases h
  · intro h
    obtain ⟨session', hf⟩ := h .empty
    exact ⟨session'.statistics, by rw [hf]⟩

theorem message?_eq_some_iff {m : String} : b.message? s = some m ↔ ∃ e session',
    Compiling.function b.config b.binary b.symbols s .empty = .error e session' ∧
      (endingOf b.symbols s (.error e)).message? = some m := by
  unfold message? ending outcome compileAlone
  cases Compiling.function b.config b.binary b.symbols s .empty with
  | ok o session' => simp [endingOf, Ending.message?]
  | error e session' => simp

theorem counts_of_mem_compiled {d : Output × Statistics} (h : d ∈ b.compiled) :
    d.2.CountsOne d.1 := by
  obtain ⟨s, -, hs⟩ := List.mem_filterMap.mp h
  cases ho : b.outcome s with
  | ok d' =>
    obtain rfl : d' = d := by simpa [ho, Except.toOption] using hs
    exact compileAlone_counts ho
  | error e => simp [ho, Except.toOption] at hs

/-! ## The report -/

/-- The report on a batch, source by source. -/
def report (b : Batch) : Report :=
  ⟨b.sources.filterMap b.output?, b.sources.filterMap b.message?, .merged b.compiled⟩

theorem map_compiled (b : Batch) : b.compiled.map (·.1) = b.sources.filterMap b.output? := by
  rw [compiled, List.map_filterMap]
  rfl

theorem reports_report (b : Batch) : b.Reports b.report := by
  obtain ⟨hfunctions, hoperations⟩ := Statistics.merged_counts fun _ => b.counts_of_mem_compiled
  have hlargest := Statistics.merged_largest fun _ => b.counts_of_mem_compiled
  rw [map_compiled] at hlargest
  exact {
    outputs := rfl
    errors := rfl
    either := fun _ => isSome_message?
    output := fun _ _ => output?_eq_some_iff
    message := fun _ _ => message?_eq_some_iff
    statistics := rfl
    functions := by rw [report, hfunctions, ← map_compiled, List.length_map]
    operations := by rw [report, hoperations, ← map_compiled, List.map_map]; rfl
    largest := hlargest }

end Batch

/-! ## A phase -/

namespace Phase

theorem errors_sync (p : Phase) :
    p.sync.errors = (p.tasks.map (·.ending)).filterMap (·.message?) := by
  rw [errors, sync, List.filter_eq_self.mpr, List.filterMap_map, List.filterMap_map]
  · rfl
  · simp

theorem tasks_foldl_run (p : Phase) (es : List Ending) :
    (es.foldl run p).tasks.map (·.ending) = p.tasks.map (·.ending) ++ es := by
  induction es generalizing p with
  | nil => simp
  | cons e es ih => simp [ih, run]

end Phase

/-- **What a phase reports** is the report on its batch. -/
theorem Batch.compileAll_eq (b : Batch) :
    compileAll b.config b.binary b.symbols b.sources = b.report := by
  have hdone : (b.sources.map fun s => (s, b.outcome s)).filterMap (fun d => d.2.toOption) =
      b.compiled := List.filterMap_map
  have herrors (p : Phase) (hp : p.tasks = []) : ((b.sources.map fun s => (s, b.outcome s)).foldl
      (fun p d => p.run (endingOf b.symbols d.1 d.2)) p).sync.errors =
        b.sources.filterMap b.message? := by
    have hrun : (b.sources.map fun s => (s, b.outcome s)).foldl
        (fun p d => p.run (endingOf b.symbols d.1 d.2)) p =
          (b.sources.map b.ending).foldl Phase.run p := by
      rw [List.foldl_map, List.foldl_map]
      rfl
    rw [hrun, Phase.errors_sync, Phase.tasks_foldl_run, hp, List.map_nil, List.nil_append,
      List.filterMap_map]
    rfl
  change Report.mk _ _ _ = _
  rw [report, ← map_compiled, ← herrors (Phase.start "lowering" b.config.multithreaded) rfl, ← hdone]
  rfl

end Codegen
