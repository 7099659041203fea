import Codegen.Compilation

/-!
# Batches

The functions of a batch are compiled as tasks of a phase. With threads the tasks run beside each
other, so a batch is a system of events: the phase starts the next task, a task makes its next step,
or the phase, once all tasks are started, sees the end of a task. The tasks share nothing but the
list of results, to which each of them adds its own when it gets there. Without threads a task is
over before the next one is started.

* `Batch.work`: the steps of a task;
* `Batch.step`, `Batch.run`: one event, and events in a row;
* `Batch.Done`: all tasks are over, and the phase knows it;
* `Crew.report`: the report on a batch that is done.
-/

namespace Codegen

/-- Functions that are compiled as tasks of a phase. -/
structure Batch where
  config : Config
  binary : Bool
  symbols : SymbolTable
  sources : List Source

/-- How far a task has come. -/
inductive TaskStage
  | working
  /-- Its result is in the list. -/
  | handedIn
  | ended (e : Ending)
  /-- The phase has seen its end. -/
  | joined (e : Ending)
deriving DecidableEq

/-- What a task adds to the list of results. -/
structure BatchResult where
  /-- The place of the function among the sources. -/
  index : Nat
  output : Output
  statistics : Statistics

/-- The tasks of a batch on their way. -/
structure Crew where
  /-- The tasks that were started, in the order of the sources. -/
  stages : List TaskStage
  /-- The results in the order in which they were handed in. -/
  results : List BatchResult

/-- What happens to a batch. -/
inductive BatchEvent
  /-- The phase starts the next task. -/
  | start
  /-- The task makes its next step. -/
  | work (task : Nat)
  /-- The phase sees the end of the task. -/
  | join (task : Nat)
deriving DecidableEq

namespace TaskStage

/-- Has the phase seen the end of the task? -/
def isJoined : TaskStage → Bool
  | joined _ => true
  | _ => false

/-- The message that is left of a task whose end the phase has seen. -/
def message? : TaskStage → Option String
  | joined e => e.message?
  | _ => none

end TaskStage

/-- No task is started yet. -/
def Crew.empty : Crew := ⟨[], []⟩

/-- The report, with the results in the order of the sources. -/
def Crew.report (c : Crew) : Report :=
  let results := c.results.mergeSort (·.index ≤ ·.index)
  ⟨results.map (·.output), c.stages.filterMap (·.message?),
    results.foldl (fun t x => t.merge x.statistics) .zero⟩

namespace Batch

/-- The outcome of a function of the batch. -/
def outcome (b : Batch) (s : Source) : Except Fault (Output × Statistics) :=
  compileAlone b.config b.binary b.symbols s

/-- How the task of a function ends. -/
def ending (b : Batch) (s : Source) : Ending := endingOf b.symbols s (b.outcome s)

/-- What the task of a function adds to the list of results. -/
def handsIn (b : Batch) (i : Nat) (s : Source) : List BatchResult :=
  match b.outcome s with
  | .ok (o, t) => [⟨i, o, t⟩]
  | .error _ => []

/-- Starts the next task. Without threads it is over at once. -/
def start (b : Batch) (c : Crew) : Option Crew := do
  let s ← b.sources[c.stages.length]?
  if b.config.multithreaded then return { c with stages := c.stages ++ [.working] }
  return ⟨c.stages ++ [.joined (b.ending s)], c.results ++ b.handsIn c.stages.length s⟩

/-- The next step of a task: it compiles its function and hands in the result, or ends without one;
behind its result it ends. -/
def work (b : Batch) (c : Crew) (i : Nat) : Option Crew := do
  let s ← b.sources[i]?
  match c.stages[i]?, b.outcome s with
  | some .working, .ok (o, t) => return ⟨c.stages.set i .handedIn, c.results ++ [⟨i, o, t⟩]⟩
  | some .working, .error _ => return { c with stages := c.stages.set i (.ended (b.ending s)) }
  | some .handedIn, _ => return { c with stages := c.stages.set i (.ended .success) }
  | _, _ => none

/-- Sees the end of a task. The phase waits for its tasks in the order in which it started them. -/
def join (b : Batch) (c : Crew) (i : Nat) : Option Crew :=
  match c.stages[i]? with
  | some (.ended e) =>
    if c.stages.length = b.sources.length ∧ (c.stages.take i).all (·.isJoined) then
      some { c with stages := c.stages.set i (.joined e) }
    else none
  | _ => none

/-- What an event leads to, if it is possible. -/
def step (b : Batch) (c : Crew) : BatchEvent → Option Crew
  | .start => b.start c
  | .work i => b.work c i
  | .join i => b.join c i

/-- What events in a row lead to, if they are possible. -/
def run (b : Batch) (es : List BatchEvent) : Option Crew := es.foldlM b.step .empty

/-- All tasks are over, and the phase has seen their ends. -/
def Done (b : Batch) (c : Crew) : Prop :=
  c.stages.length = b.sources.length ∧ c.stages.all (·.isJoined)

instance (b : Batch) (c : Crew) : Decidable (b.Done c) := inferInstanceAs (Decidable (_ ∧ _))

/-- The same functions, but compiled one behind the other. -/
def inline (b : Batch) : Batch := { b with config := b.config.withThreads false }

end Batch

end Codegen
