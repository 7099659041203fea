import Codegen.Selection.Call

/-!
# Merging of states

Where control flow meets, each value that goes on has to be at one place. The instruction that
enters a region records where the active values are; the one that leaves it moves the values of the
variables back there. In between a snapshot lets another branch start from the same state.

* `Generating.recordEntry`, `saveSnapshot`, `restoreSnapshot`: records and snapshots;
* `Generating.reconcile`: brings values back to where a region was entered with them;
* `Generating.buildCache`: loads values ahead of a region, as far as registers are free.
-/

namespace Codegen.Generating

/-! ## Records -/

/-- Records where some values are. -/
def recordEntry (position : Nat) (actives : List Binding) : Generating Unit := do
  let entries ← actives.mapM fun (v, x) => return ⟨v, x, ← handleOf x⟩
  modify fun r => { r with entries := (position, entries) :: r.entries }

/-- Records the places of all values. -/
def saveSnapshot (position : Nat) : Generating Unit :=
  modify fun r =>
    { r with
      snapshots := (position, ⟨r.registers.occupancy, r.values.handles⟩) :: r.snapshots }

/-- Returns to the places that an instruction recorded. -/
def restoreSnapshot (save : Nat) : Generating Unit := do
  let s ← required (.noSavedState save) ((← get).snapshots.lookup save)
  modify fun r =>
    { r with
      registers := r.registers.restore s.occupancy
      values := r.values.restoreHandles s.handles fun _ => false }

/-! ## Bringing values back -/

/-- What bringing back a variable takes: a move, and the place as the home of the outer value. -/
structure ReturnPlan where
  moves : List (Handle × ValueId)
  homes : List (ValueId × Handle)

/-- What it takes to bring back a variable. The slot of an unchanged variable just becomes its
place again. -/
def planReturn (entries : List Entry) (survivingOnly : Bool) (p : MergePair) :
    Generating ReturnPlan := do
  let survives ← isValid p.outer ((← get).position + 1)
  match (entries.find? (·.value == p.outer)).map Entry.handle with
  | none => return ⟨[], []⟩
  | some h =>
    if survivingOnly && !survives then return ⟨[], []⟩
    if h.register?.isNone && !h.isSlot then return ⟨[], []⟩
    if p.inner = p.outer ∧ h.isSlot then
      setHandle p.outer h
      return ⟨[], []⟩
    let moves := if (← handleOf p.inner) = h then [] else [(h, p.inner)]
    return ⟨moves, [(p.outer, h)]⟩

/-- Makes a place the home of a value. -/
def settleAt (v : ValueId) (h : Handle) : Generating Unit := do
  h.register?.forM fun r => changeRegisters (·.assign r v)
  setHandle v h

/-- Brings the inner value of each pair to where its outer value was at an entry. -/
def reconcile (entry : Nat) (pairs : List MergePair) (survivingOnly : Bool) :
    Generating Unit := do
  let entries ← required (.noEntry entry) ((← get).entries.lookup entry)
  let plans ← pairs.mapM (planReturn entries survivingOnly)
  let homes := plans.flatMap ReturnPlan.homes
  parallelMove (plans.flatMap ReturnPlan.moves) (homes.map (·.1))
  homes.forM fun (v, h) => settleAt v h

/-! ## Loading ahead -/

/-- A free register of a bank, of those that calls preserve if asked for. -/
def freeFor? (bank : Nat) (preserved : Bool) : Generating (Option Register) :=
  if preserved then freePreserved? bank else free? bank

/-- Loads a value from its slot into a free register. -/
def cacheSlot (v : ValueId) (h : Handle) (preserved : Bool) : Generating Unit := do
  let f ← formatOf v
  match ← freeFor? f.bank preserved with
  | none => pure ()
  | some r =>
    transferToRegister r h f
    place v r

/-- Moves a value to a register that calls preserve, if one is free. -/
def preserve (v : ValueId) (r : Register) : Generating Unit := do
  if (← isVolatile r) && (← owner? r) == some v then
    match ← freePreserved? (← formatOf v).bank with
    | some d => relocate v r d
    | none => pure ()

/-- Loads the values of variables that are in slots, and moves them to preserved registers if asked
for. Nothing is evicted. -/
def buildCache (vars : List Binding) (preserved : Bool) : Generating Unit :=
  vars.forM fun (_, x) => do
    if ← isValid x ((← get).position + 1) then
      match ← handleOf x with
      | .register r => if preserved then preserve x r
      | h => if h.isSlot then cacheSlot x h preserved

end Codegen.Generating
