/-!
# Phases

A phase runs independent tasks and collects how they ended. A task that fails or crashes leaves
the others alone. In a threaded phase a task counts as unfinished until the phase is joined.

* `Ending`: how the work of a task ends, and the message that is left of it;
* `Phase.run`, `Phase.sync`: starts a task, waits for all;
* `Phase.failed`, `completed`, `errors`: what is known of the tasks.
-/

namespace Codegen

/-- How the work of a task ends. -/
inductive Ending
  | success
  | failure (message : String)
  /-- The work broke off; the text is what it said, if it said anything. -/
  | broke (text : Option String)
deriving DecidableEq, Inhabited

/-- The message of a task that did not succeed. -/
def Ending.message? : Ending → Option String
  | success => none
  | failure message => some message
  | broke text => some (text.getD "task panicked")

/-- A task of a phase. -/
structure PhaseTask where
  ending : Ending
  /-- Has the phase seen the end of the task? -/
  joined : Bool
deriving DecidableEq, Inhabited

/-- The tasks of one phase in the order in which they were started. -/
structure Phase where
  name : String
  multithreaded : Bool
  tasks : List PhaseTask

namespace Phase

/-- A phase without tasks. -/
def start (name : String) (multithreaded : Bool) : Phase := ⟨name, multithreaded, []⟩

/-- Starts a task, which without threads ends at once. -/
def run (p : Phase) (e : Ending) : Phase :=
  { p with tasks := p.tasks ++ [⟨e, !p.multithreaded⟩] }

/-- Waits for all tasks. -/
def sync (p : Phase) : Phase := { p with tasks := p.tasks.map ({ · with joined := true }) }

/-- Is a task unfinished or without success? -/
def failed (p : Phase) : Bool := p.tasks.any fun t => !t.joined || t.ending.message?.isSome

/-- The number of tasks that are known to have ended. -/
def completed (p : Phase) : Nat := p.tasks.countP (·.joined)

/-- The messages of the tasks that are known to have ended without success. -/
def errors (p : Phase) : List String :=
  (p.tasks.filter (·.joined)).filterMap fun t => t.ending.message?

end Phase

end Codegen
