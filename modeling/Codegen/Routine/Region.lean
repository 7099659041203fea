import Codegen.Routine.Append

/-!
# Regions

A region is a part of a function that can be entered or left in more than one way. A region that
merges brings each variable back, on its way out, to where it was when the region was entered.

* `Generating.within`: instructions inside a region;
* `Generating.mergePairs`: what a region has to bring back;
* `Generating.prepareAssigned`: gives the variables that are assigned inside a place to merge at;
* `Generating.cache`: loads the variables that are read inside ahead of the region;
* `Generating.keepAlive`, `keepUsedLater`: keeps values from expiring inside the region.
-/

namespace Codegen.Generating

/-- The active variables of a region with the values that they have by now. -/
def mergePairs (actives : List Binding) : Generating (List MergePair) := do
  let bindings := (← get).bindings
  return actives.map fun (v, x) => ⟨v, x, (bindings.lookup v).getD x⟩

/-- Appends instructions inside a region; one that merges is bracketed by two instructions. -/
def within (actives : List Binding) (merging : Bool) (f : Generating Unit) : Generating Unit := do
  let enter? ← if merging then some <$> appendMarker (.enterScope actives) else pure none
  modify fun r => { r with regions := ⟨actives, enter?⟩ :: r.regions }
  f
  modify fun r => { r with regions := r.regions.tail }
  match enter? with
  | some enter => do let _ ← appendMarker (.mergeScope enter (← mergePairs actives))
  | none => pure ()

/-! ## Before a region -/

/-- Gives a variable that is assigned inside a region a place to merge at. A constant or a stack
address is copied into a register. A variable without a value gets its stack slot, if it is
declared outside or read after the region. -/
def prepareVariable (contexts : List ContextId) (anchor : NodeId) (v : VariableId) :
    Generating Unit := do
  match ← bound? v with
  | some x =>
    match ← handleOf x with
    | .constant _ | .inline .. => bind v (← append (.duplicate x) (← formatOfVariable v))
    | _ => pure ()
  | none =>
    let declared := (← variableOf v).context
    let inside ← contexts.mapM fun c => ask (·.symbols.isInside declared c)
    if !inside.any id || (← get).tree.isUsedLater anchor v then
      let _ ← bindToSlot v

/-- Gives all variables that are assigned in some nodes a place to merge at. -/
def prepareAssigned (nodes : List NodeId) : Generating Unit := do
  let r ← get
  match nodes.getLast? with
  | none => pure ()
  | some anchor =>
    let assigned := Tree.sortedSet (nodes.flatMap (r.tree.variablesAssigned r.symbols))
    assigned.forM (prepareVariable (nodes.filterMap r.tree.contextOf?) anchor)

/-- Loads the bound variables that some nodes read ahead of them. -/
def cache (nodes : List NodeId) (preserved : Bool) : Generating Unit := do
  let r ← get
  let read := Tree.sortedSet (nodes.flatMap (r.tree.variablesRead r.symbols))
  let vars := read.filterMap fun v => (r.bindings.lookup v).map (v, ·)
  if !vars.isEmpty then
    let _ ← appendMarker (.cacheVariables vars preserved)

/-! ## After a region -/

/-- Appends reads that keep the values of a region alive. -/
def keepAlive (actives : List Binding) : Generating Unit :=
  actives.forM fun (v, x) => do let _ ← appendMarker (.getVariable v x)

/-- Keeps the values alive that can be read after a node. -/
def keepUsedLater (n : NodeId) (actives : List Binding) : Generating Unit := do
  let t := (← get).tree
  keepAlive (actives.filter fun b => t.isUsedLater n b.1)

end Codegen.Generating
