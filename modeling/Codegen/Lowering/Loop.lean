import Codegen.Lowering.Condition

/-!
# Lowering of loops

A loop records where its variables are at the start of a round. Every way back to the start and
every way out from inside brings them there again. A loop with a condition tests it once before the
first round and again after each round.

* `Generating.openSymmetry`, `closeSymmetry`: the bracket around a round;
* `Generating.lowerPretested`, `lowerForever`: the two kinds of loops;
* `Generating.lowerControl`: the statements that leave or restart a loop.
-/

namespace Codegen.Generating

/-! ## Rounds -/

/-- Loads what the loop reads ahead of it, unless the code is for debugging, and gives what it
assigns a place. -/
def prepareLoop (n : NodeId) : Generating Unit := do
  let r ← get
  if !r.config.debug then cache [n] (r.tree.containsCall n)
  prepareAssigned [n]

/-- Begins a round: records where the active variables are, and registers the loop. -/
def openSymmetry (n : NodeId) (start exit : Label) (actives : List Binding) : Generating Nat := do
  let symmetry ← appendMarker (.symmetryStart n actives)
  modify fun r => { r with loops := (n, ⟨start, exit, symmetry, actives⟩) :: r.loops }
  return symmetry

/-- Ends a round: brings the active variables back, and binds them to the values that the round
began with. -/
def closeSymmetry (symmetry : Nat) (actives : List Binding) : Generating Unit := do
  let _ ← appendMarker (.symmetryEnd symmetry (← mergePairs actives))
  actives.forM fun (v, x) => bind v x

/-- Lowers the body of a loop. -/
def lowerLoopBody (lower : Lowering) (n : NodeId) : Generating Unit := do
  let _ ← lower (← required .loopWithoutBody ((← get).tree.body? n))

/-! ## Loops -/

/-- Lowers the statements before the condition of a loop. -/
def lowerBeforeCondition (lower : Lowering) (n : NodeId) : Generating Unit := do
  ((← get).tree.conditionInitialization n).forM fun s => do let _ ← lower s

/-- Lowers the condition of a loop; where it holds, control goes to the first label. -/
def lowerLoopTest (lower : Lowering) (n : NodeId) (success failure next : Label) :
    Generating Unit := do
  let test ← required .loopWithoutCondition ((← get).tree.condition? n)
  lowerCondition lower test success failure (some next)

/-- Lowers a loop that tests its condition before each round. -/
def lowerPretested (lower : Lowering) (n : NodeId) : Generating Unit := do
  let start ← newLabel
  let stop ← newLabel
  ((← get).tree.loopInitialization? n).forM fun s => do let _ ← lower s
  prepareLoop n
  lowerBeforeCondition lower n
  let enter ← newLabel
  lowerLoopTest lower n enter stop enter
  let save ← appendMarker .saveState
  let actives := (← get).bindings
  within actives false do
    appendLabel start
    let symmetry ← openSymmetry n start stop actives
    lowerLoopBody lower n
    ((← get).tree.loopAction? n).forM fun s => do let _ ← lower s
    closeSymmetry symmetry actives
    lowerBeforeCondition lower n
    let exit ← newLabel
    lowerLoopTest lower n start exit exit
    keepAlive actives
  appendLabel stop
  let _ ← appendMarker (.restoreState save)

/-- Lowers an endless loop. -/
def lowerForever (lower : Lowering) (n : NodeId) : Generating Unit := do
  prepareLoop n
  let save ← appendMarker .saveState
  let start ← newLabel
  let exit ← newLabel
  appendLabel start
  let round ← newLabel
  let actives := (← get).bindings
  within actives false do
    appendLabel round
    let symmetry ← openSymmetry n round exit actives
    lowerLoopBody lower n
    closeSymmetry symmetry actives
  appendJump round none
  let _ ← appendMarker (.restoreState save)
  appendLabel exit

/-! ## Leaving and restarting -/

/-- Lowers a statement that leaves or restarts the loop around it. Only the jump sees the values
at the places of a new round; the code after it goes on from the state before. -/
def lowerControl (n : NodeId) (control : LoopControl) : Generating Unit := do
  let r ← get
  let loop ← required (.controlOutsideLoop control) (r.tree.enclosingLoop? n)
  let record ← required (.controlInUnknownLoop control) (r.loops.lookup loop)
  let pairs ← mergePairs record.actives
  let save ← appendMarker .saveState
  let _ ← appendMarker (.symmetryEnd record.symmetry pairs)
  match control with
  | .stop => appendJump record.exit none
  | .next => appendJump record.start none
  let _ ← appendMarker (.restoreState save)

end Codegen.Generating
