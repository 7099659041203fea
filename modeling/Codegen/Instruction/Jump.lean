import Codegen.Instruction.Basic

/-!
# Condition steps

A condition becomes a list of comparisons, jumps and labels. Before the list is appended, jumps
that change nothing are taken out.

* `Step`: an element of the list;
* `Step.dropJumps`, `invertJumps`, `dropLabels`: the three rules;
* `Step.simplify`: the rules, until the list no longer gets shorter.
-/

namespace Codegen

/-- An element of a lowered condition. -/
inductive Step
  /-- The comparison of the values of two nodes. -/
  | compare (left right : NodeId)
  /-- A jump, unconditional without a test. -/
  | jump (label : Label) (test : Option JumpTest)
  | label (label : Label)
deriving DecidableEq, Inhabited

namespace Step

/-- The label that a step jumps to. -/
def target? : Step → Option Label
  | jump l _ => some l
  | _ => none

/-! ## Rules -/

/-- Takes out a jump in front of steps that begin with its own label. -/
def dropJump : Step → List Step → List Step
  | jump l none, label m :: rest =>
    if l = m then label m :: rest else jump l none :: label m :: rest
  | s, rest => s :: rest

/-- Takes out the jumps to the label right after them, from the last step to the first. -/
def dropJumps : List Step → List Step
  | [] => []
  | s :: rest => dropJump s (dropJumps rest)

/-- Turns a conditional jump over an unconditional one into one inverted jump. -/
def invertJump : Step → List Step → List Step
  | jump skipped (some test), jump target none :: label next :: rest =>
    if skipped = next ∧ target ≠ next then
      jump target (some { test with comparison := test.comparison.inverse }) :: label next :: rest
    else jump skipped (some test) :: jump target none :: label next :: rest
  | s, rest => s :: rest

/-- Inverts the conditional jumps over unconditional ones, from the last step to the first. -/
def invertJumps : List Step → List Step
  | [] => []
  | s :: rest => invertJump s (invertJumps rest)

/-- Takes out the labels that no step jumps to. -/
def dropLabels (steps : List Step) : List Step :=
  let used := steps.filterMap target?
  steps.filter fun
    | label l => used.contains l
    | _ => true

/-- Each rule once. -/
def simplifyOnce (steps : List Step) : List Step := dropLabels (invertJumps (dropJumps steps))

/-- The rules, until the list no longer gets shorter. -/
def simplify (steps : List Step) : List Step :=
  let next := simplifyOnce steps
  if next.length < steps.length then simplify next else next
termination_by steps.length

end Step

end Codegen
