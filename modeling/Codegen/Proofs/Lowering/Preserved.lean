import Codegen.Proofs.Ensures
import Codegen.Proofs.Lowering.Parts

/-!
# Invariants of lowering

Lowering does few things to a routine: it makes values, marks them as needed, joins them, appends
instructions without operations, and changes the tree, the bindings, the open regions, the loops
and the counters. A property that each of these keeps is kept by lowering as a whole. Making the
name of a stack array and appending its instruction count as one change.

* `Handle.IsInitial`: the places that lowering gives to values;
* `ValueInvariant`: a property that changes of values keep;
* `LoweringInvariant`: **a property that the single changes keep**;
* `LoweringInvariant.append`, `bind`, `within`, ...: the steps of a lowering;
* `LoweringInvariant.lowerNode`, `lowerFunction`: **a node, and a whole function**.
-/

namespace Codegen

/-- The places that values have when they are made: none, constants, and places in memory that are
named by other values or by a variable. -/
def Handle.IsInitial : Handle → Prop
  | none | constant _ | inline .. | memory .. | scaledMemory .. | variableSlot _ => True
  | _ => False

theorem InstructionKind.isInitial_initialHandle (k : InstructionKind) :
    k.initialHandle.IsInitial := by
  cases k <;> trivial

/-- The name of the stack array that an instruction makes. -/
def InstructionKind.array? : InstructionKind → Option String
  | allocateStack identity _ => some identity
  | _ => none

/-- A property that the changes of values keep. -/
structure ValueInvariant (I : Routine → Prop) : Prop where
  create : ∀ {r h f}, I r → h.IsInitial → I { r with values := (r.values.create h f).2 }
  setMetadata : ∀ {r v m values}, I r → r.values.setMetadata v m false = .ok values →
    I { r with values }
  setInstruction : ∀ {r v i values}, I r → r.values.setInstruction v i = .ok values →
    I { r with values }
  useAt : ∀ {r v p values}, I r → r.values.useAt v p = .ok values → I { r with values }
  join : ∀ {r v w mode values}, I r → r.values.join v w mode = .ok values → I { r with values }

/-- **A property that the single changes of a lowering keep.** -/
structure LoweringInvariant (I : Routine → Prop) : Prop extends ValueInvariant I where
  push : ∀ {r} (k x), k.array? = none → I r →
    I { r with instructions := r.instructions.push ⟨k, x, k.parameters, []⟩ }
  array : ∀ bytes, Generating.Preserves I do
    Generating.append (.allocateStack (← Generating.newIdentity) bytes) .u64
  context : ∀ {r} (tree bindings regions loops labels), I r →
    I { r with tree, bindings, regions, loops, labels }

variable {I : Routine → Prop} {v : VariableId} {x y : ValueId} {n : NodeId}
variable {k : InstructionKind} {format : Format} {actives : List Binding}
variable {l success failure next : Label} {next? : Option Label} {lower : Generating.Lowering}

/-! ## Questions -/

namespace Generating

theorem mergePairs_preserves : Preserves I (mergePairs actives) :=
  .seq Ensures.get.preserves fun _ => .pure trivial

theorem memberOf_preserves : Preserves I (memberOf n) :=
  .question fun _ _ _ h => (memberOf_parts h).2.2

theorem isBindable_preserves : Preserves I (isBindable x format) :=
  .question fun _ _ _ => isBindable_keeps

theorem checkArguments_preserves {name : String} {formats : List Format} :
    Preserves I (checkArguments name formats) := .question fun _ _ _ => checkArguments_keeps

theorem returnsDecimal_preserves : Preserves I returnsDecimal :=
  .question fun _ _ _ => returnsDecimal_keeps

theorem comparesSigned_preserves {left right : NodeId} : Preserves I (comparesSigned left right) :=
  .question fun _ _ _ => comparesSigned_keeps

theorem checkChain_preserves {t : Tree} {m : NodeId} : Preserves I (checkChain t n m) :=
  .question fun _ _ _ h => (checkChain_keeps h).1

theorem comparisonSteps_preserves {o : Operator} :
    Preserves I (comparisonSteps n o success failure) :=
  .seq operandsOf_preserves fun _ => .seq Ensures.required.preserves fun _ =>
    .seq comparesSigned_preserves fun _ => .pure trivial

section

variable (hl : ∀ n, Preserves I (lower n))
include hl

theorem valueOfNode_preserves : Preserves I (valueOfNode lower n) := by
  refine .seq (hl n) fun o => ?_
  split
  · exact .pure trivial
  · exact .seq Ensures.get.preserves fun _ => .refuse

theorem lowerEach_preserves {ns : List NodeId} :
    Preserves I (ns.forM fun s => do let _ ← lower s) :=
  .forM fun s _ => .seq (hl s) fun _ => .pure trivial

theorem lowerOptional_preserves {s? : Option NodeId} :
    Preserves I (s?.forM fun s => do let _ ← lower s) :=
  .optionForM fun s => .seq (hl s) fun _ => .pure trivial

theorem lowerBeforeCondition_preserves : Preserves I (lowerBeforeCondition lower n) :=
  .seq Ensures.get.preserves fun _ => lowerEach_preserves hl

theorem lowerLoopBody_preserves : Preserves I (lowerLoopBody lower n) :=
  .seq Ensures.get.preserves fun _ => .seq Ensures.required.preserves fun _ =>
    .seq (hl _) fun _ => .pure trivial

theorem lowerStatements_preserves {ns : List NodeId} {last? : Option ValueId} :
    Preserves I (lowerStatements lower last? ns) := by
  induction ns generalizing last? with
  | nil => exact .pure trivial
  | cons n rest ih =>
    exact .seq Ensures.get.preserves fun _ => .ite (fun _ => ih) fun _ => .seq (hl n) fun _ => ih

end

end Generating

open Generating

/-! ## Instructions -/

namespace ValueInvariant

variable (hI : ValueInvariant I)
include hI

theorem create_preserves {h : Handle} (hh : h.IsInitial) :
    Preserves I (Generating.create h format) :=
  .modifyGet fun _ hr => hI.create hr hh

theorem joinResult_preserves : Preserves I (joinResult x k) := by
  unfold joinResult
  split
  · exact .changeValues fun _ _ => hI.join
  · exact .changeValues fun _ _ => hI.join
  · exact .pure trivial

theorem append_preserves (hpush : ∀ r x, I r →
    I { r with instructions := r.instructions.push ⟨k, x, k.parameters, []⟩ }) :
    Preserves I (append k format) :=
  .seq Ensures.get.preserves fun _ => .seq (hI.create_preserves k.isInitial_initialHandle) fun x =>
    .seq (.changeValues fun _ _ => hI.setMetadata) fun _ =>
      .seq (.changeValues fun _ _ => hI.setInstruction) fun _ =>
        .seq (.forM fun _ _ => .changeValues fun _ _ => hI.useAt) fun _ =>
          .seq (.changeValues fun _ _ => hI.useAt) fun _ => .seq hI.joinResult_preserves fun _ =>
            .seq (.modify fun r => hpush r x) fun _ => .pure trivial

end ValueInvariant

namespace LoweringInvariant

variable (hI : LoweringInvariant I)
include hI

theorem append_preserves (hk : k.array? = none) : Preserves I (append k format) :=
  hI.toValueInvariant.append_preserves fun _ x => hI.push k x hk

theorem appendMarker_preserves (hk : k.array? = none) : Preserves I (appendMarker k) :=
  .seq Ensures.get.preserves fun _ => .seq (hI.append_preserves hk) fun _ => .pure trivial

theorem appendLabel_preserves : Preserves I (appendLabel l) :=
  .seq (hI.append_preserves rfl) fun _ => .pure trivial

theorem appendJump_preserves {test : Option JumpTest} : Preserves I (appendJump l test) :=
  .seq (hI.append_preserves rfl) fun _ => .pure trivial

theorem newLabel_preserves : Preserves I newLabel :=
  .modifyGet fun r => hI.context r.tree r.bindings r.regions r.loops (r.labels + 1)

/-! ## Variables -/

theorem rebind_preserves {f : Routine → List Binding} :
    Preserves I (modify fun r => { r with bindings := f r }) :=
  .modify fun r => hI.context r.tree (f r) r.regions r.loops r.labels

theorem bind_preserves : Preserves I (bind v x) :=
  .seq (.seq cellOf_preserves fun _ => .changeValues fun _ _ => hI.setMetadata) fun _ =>
    hI.rebind_preserves

theorem bindToSlot_preserves : Preserves I (bindToSlot v) :=
  .seq formatOfVariable_preserves fun _ => .seq (hI.create_preserves trivial) fun _ =>
    .seq hI.bind_preserves fun _ => .pure trivial

theorem valueOf_preserves : Preserves I (valueOf v) := by
  refine .seq bound?_preserves fun o => ?_
  split
  · exact .pure trivial
  · refine .seq variableOf_preserves fun i => ?_
    split
    · exact hI.bindToSlot_preserves
    · exact hI.bindToSlot_preserves
    · exact .refuse
    · exact .unsupported

theorem keepingBindings_preserves {f : Generating Unit} (hf : Preserves I f) :
    Preserves I (keepingBindings f) :=
  .seq Ensures.get.preserves fun _ => .seq hf fun _ => hI.rebind_preserves

/-! ## Regions -/

theorem withRegions_preserves {f : Routine → List Region} :
    Preserves I (modify fun r => { r with regions := f r }) :=
  .modify fun r => hI.context r.tree r.bindings (f r) r.loops r.labels

theorem inRegion_preserves {f : Generating Unit} (hf : Preserves I f) (enter? : Option Nat) :
    Preserves I (do
      modify fun r => { r with regions := ⟨actives, enter?⟩ :: r.regions }
      f
      modify fun r => { r with regions := r.regions.tail }
      match enter? with
      | some enter => do let _ ← appendMarker (.mergeScope enter (← mergePairs actives))
      | none => pure ()) := by
  refine .seq hI.withRegions_preserves fun _ => .seq hf fun _ =>
    .seq hI.withRegions_preserves fun _ => ?_
  split
  · exact .seq mergePairs_preserves fun _ => .seq (hI.appendMarker_preserves rfl) fun _ => .pure trivial
  · exact .pure trivial

theorem within_preserves {merging : Bool} {f : Generating Unit} (hf : Preserves I f) :
    Preserves I (within actives merging f) :=
  .ite (fun _ => .seq (.map (hI.appendMarker_preserves rfl) fun _ => id) (hI.inRegion_preserves hf))
    fun _ => .seq (.pure trivial) (hI.inRegion_preserves hf)

theorem prepareVariable_preserves {contexts : List ContextId} :
    Preserves I (prepareVariable contexts n v) := by
  refine .seq bound?_preserves fun o => ?_
  split
  · refine .seq handleOf_preserves fun h => ?_
    split
    · exact .seq formatOfVariable_preserves fun _ => .seq (hI.append_preserves rfl) fun _ =>
        hI.bind_preserves
    · exact .seq formatOfVariable_preserves fun _ => .seq (hI.append_preserves rfl) fun _ =>
        hI.bind_preserves
    · exact .pure trivial
  · exact .seq variableOf_preserves fun _ => .seq (Ensures.mapM fun _ _ => .ask).preserves fun _ =>
      .seq Ensures.get.preserves fun _ =>
        .ite (fun _ => .seq hI.bindToSlot_preserves fun _ => .pure trivial) fun _ => .pure trivial

theorem prepareAssigned_preserves {ns : List NodeId} : Preserves I (prepareAssigned ns) := by
  refine .seq Ensures.get.preserves fun r => ?_
  split
  · exact .pure trivial
  · exact .forM fun _ _ => hI.prepareVariable_preserves

theorem cache_preserves {ns : List NodeId} {preserved : Bool} : Preserves I (cache ns preserved) :=
  .seq Ensures.get.preserves fun _ =>
    .ite (fun _ => .seq (hI.appendMarker_preserves rfl) fun _ => .pure trivial) fun _ => .pure trivial

theorem keepAlive_preserves : Preserves I (keepAlive actives) :=
  .forM fun _ _ => .seq (hI.appendMarker_preserves rfl) fun _ => .pure trivial

theorem keepUsedLater_preserves : Preserves I (keepUsedLater n actives) :=
  .seq Ensures.get.preserves fun _ => hI.keepAlive_preserves

/-! ## Expressions -/

theorem appendOrRefuse_preserves {o : Operator} : Preserves I (match arithmetic? x y o with
    | some kind => append kind format
    | none => refuse (.notArithmetic o)) := by
  split
  next kind hkind =>
    refine hI.append_preserves ?_
    unfold arithmetic? at hkind
    split at hkind <;> cases hkind <;> rfl
  next => exact .refuse

theorem appendArithmetic_preserves {o : Operator} :
    Preserves I (appendArithmetic o format x y) := by
  have zero : (Handle.constant (.integer 0)).IsInitial := trivial
  exact .seq constantOf?_preserves fun _ => .ite (fun _ => .pure trivial) fun _ =>
    .ite (fun _ => .seq (hI.create_preserves zero) fun _ => .pure trivial) fun _ =>
      hI.appendOrRefuse_preserves

section Parts

variable (hl : ∀ n, Preserves I (lower n))
include hl

theorem lowerArithmetic_preserves {o : Operator} : Preserves I (lowerArithmetic lower n o) := by
  refine .seq operandsOf_preserves fun _ => .seq .ask fun _ =>
    .seq (valueOfNode_preserves hl) fun _ => .seq (valueOfNode_preserves hl) fun _ =>
      .seq constantOf?_preserves fun _ => .seq constantOf?_preserves fun _ => ?_
  split
  · split
    · exact hI.create_preserves trivial
    · exact hI.appendArithmetic_preserves
  · exact .ite (fun _ => hI.appendArithmetic_preserves) fun _ => hI.appendArithmetic_preserves
  · exact hI.appendArithmetic_preserves

theorem lowerAssignment_preserves : Preserves I (lowerAssignment lower n) := by
  refine .seq operandsOf_preserves fun _ => .seq Ensures.get.preserves fun _ => ?_
  have stored {destination source : NodeId} : Preserves I (do
      let d ← valueOfNode lower destination
      let x ← valueOfNode lower source
      let _ ← append (.move d x) (← formatOf d)
      return x) :=
    .seq (valueOfNode_preserves hl) fun _ => .seq (valueOfNode_preserves hl) fun _ =>
      .seq formatOf_preserves fun _ => .seq (hI.append_preserves rfl) fun _ => .pure trivial
  split
  · exact .seq (valueOfNode_preserves hl) fun _ => .seq formatOfVariable_preserves fun _ =>
      .seq isBindable_preserves fun _ =>
        .ite (fun _ => .seq (.pure trivial) fun _ => .seq hI.bind_preserves fun _ => .pure trivial)
          fun _ => .seq (hI.append_preserves rfl) fun _ => .seq hI.bind_preserves fun _ => .pure trivial
  · exact stored
  · exact stored
  · exact .refuse

theorem lowerLink_preserves : Preserves I (lowerLink lower n) :=
  .seq operandsOf_preserves fun _ => .seq memberOf_preserves fun _ =>
    .seq (valueOfNode_preserves hl) fun _ => .seq formatOfVariable_preserves fun _ =>
      (hI.append_preserves rfl)

theorem lowerOffset_preserves : Preserves I (lowerOffset lower n) :=
  .seq operandsOf_preserves fun _ => .seq (valueOfNode_preserves hl) fun _ =>
    .seq (valueOfNode_preserves hl) fun _ => (hI.append_preserves rfl)

theorem lowerCall_preserves {f : FunctionId} : Preserves I (lowerCall lower n f) :=
  .seq Ensures.get.preserves fun _ =>
    .seq (Ensures.mapM fun _ _ => valueOfNode_preserves hl).preserves fun _ => .seq .ask fun _ =>
      .seq (Ensures.mapM fun _ _ => formatOf_preserves).preserves fun _ =>
        .seq checkArguments_preserves fun _ => .seq formatOfType_preserves fun _ =>
          .seq (hI.append_preserves rfl) fun _ => .seq .ask fun _ => (hI.append_preserves rfl)

theorem lowerReturn_preserves : Preserves I (lowerReturn lower n) := by
  have returned {value? : Option ValueId} : Preserves I (do
      let _ ← append (.ret value?) .i64) :=
    .seq (hI.append_preserves rfl) fun _ => .pure trivial
  refine .seq Ensures.get.preserves fun _ => ?_
  split
  · refine .seq (valueOfNode_preserves hl) fun _ => .seq returnsDecimal_preserves fun _ =>
      .seq formatOf_preserves fun _ => .ite (fun _ => ?_) fun _ => ?_
    · exact .seq (.map (hI.append_preserves rfl) fun _ => id) fun _ => returned
    · exact .seq (.pure trivial) fun _ => returned
  · exact .seq (.pure trivial) fun _ => returned

/-! ## Conditions -/

omit hl in
theorem compareWithZero_preserves : Preserves I (compareWithZero n) :=
  .seq .ask fun _ => .modifyGet fun r hr =>
    hI.context _ r.bindings r.regions r.loops r.labels hr

omit hl in
theorem conditionStepsWithin_preserves {fuel : Nat} :
    Preserves I (conditionStepsWithin fuel n success failure) := by
  induction fuel generalizing n success failure with
  | zero => exact .throw
  | succ fuel ih =>
    have compared : Preserves I (do
        comparisonSteps (← compareWithZero n) .notEquals success failure) :=
      .seq hI.compareWithZero_preserves fun _ => comparisonSteps_preserves
    unfold conditionStepsWithin
    refine .seq Ensures.get.preserves fun _ => ?_
    split
    · refine .ite (fun _ => ?_) fun _ => .ite (fun _ => comparisonSteps_preserves) fun _ =>
        compared
      refine .seq operandsOf_preserves fun _ => .seq hI.newLabel_preserves fun _ =>
        .ite (fun _ => ?_) fun _ => ?_
      all_goals exact .seq ih fun _ => .seq ih fun _ => .pure trivial
    · exact .seq Ensures.get.preserves fun _ => .seq Ensures.required.preserves fun _ => ih
    · exact compared

theorem appendComparison_preserves {left right : NodeId} :
    Preserves I (appendComparison lower left right) :=
  .seq (hI.appendMarker_preserves rfl) fun _ =>
    .seq (hI.keepingBindings_preserves <| .seq Ensures.get.preserves fun _ =>
      hI.within_preserves <| .seq (valueOfNode_preserves hl) fun _ =>
        .seq (valueOfNode_preserves hl) fun _ => .seq (hI.append_preserves rfl) fun _ => .pure trivial)
      fun _ => .seq (hI.appendMarker_preserves rfl) fun _ => .pure trivial

theorem lowerCondition_preserves :
    Preserves I (lowerCondition lower n success failure next?) := by
  refine .seq (.seq (.seq Ensures.get.preserves fun _ => hI.conditionStepsWithin_preserves)
    fun _ => .pure trivial) fun _ => .forM fun s _ => ?_
  cases s with
  | compare => exact hI.appendComparison_preserves hl
  | jump => exact hI.appendJump_preserves
  | label => exact hI.appendLabel_preserves

/-! ## Branches -/

theorem lowerBranchTest_preserves : Preserves I (lowerBranchTest lower n failure) :=
  .seq Ensures.get.preserves fun _ => .seq (lowerEach_preserves hl) fun _ =>
    .seq Ensures.get.preserves fun _ => .seq Ensures.required.preserves fun _ =>
      .seq hI.newLabel_preserves fun _ => hI.lowerCondition_preserves hl

theorem lowerBranchBody_preserves : Preserves I (lowerBranchBody lower n) :=
  .seq Ensures.get.preserves fun _ => .seq Ensures.required.preserves fun _ =>
    .seq (hI.appendMarker_preserves rfl) fun _ => .seq Ensures.get.preserves fun _ =>
      .seq (hI.keepingBindings_preserves <| hI.within_preserves <|
        .seq (hl _) fun _ => .pure trivial) fun _ =>
        .seq (hI.appendMarker_preserves rfl) fun _ => hI.keepUsedLater_preserves

theorem lowerBranches_preserves {stop : Label} {ns : List NodeId} :
    Preserves I (lowerBranches lower stop ns) := by
  induction ns with
  | nil => exact .pure trivial
  | cons n rest ih =>
    have body {next : Label} : Preserves I (do
        lowerBranchBody lower n
        if !rest.isEmpty then
          appendJump stop none
          appendLabel next
          lowerBranches lower stop rest) :=
      .seq (hI.lowerBranchBody_preserves hl) fun _ => .ite (fun _ =>
        .seq hI.appendJump_preserves fun _ => .seq hI.appendLabel_preserves fun _ => ih)
        fun _ => .pure trivial
    have tested {c : Bool} {next : Label} : Preserves I (do
        if c then lowerBranchTest lower n next
        lowerBranchBody lower n
        if !rest.isEmpty then
          appendJump stop none
          appendLabel next
          lowerBranches lower stop rest) :=
      .ite (fun _ => .seq (hI.lowerBranchTest_preserves hl) fun _ => body) fun _ => body
    exact .seq Ensures.get.preserves fun _ =>
      .seq (.optionForM fun _ => checkChain_preserves) fun _ =>
        .ite (fun _ => .seq (.pure trivial) fun _ => tested) fun _ =>
          .seq hI.newLabel_preserves fun _ => tested

theorem lowerChain_preserves : Preserves I (lowerChain lower n) :=
  .seq Ensures.get.preserves fun _ => .seq hI.cache_preserves fun _ =>
    .seq hI.prepareAssigned_preserves fun _ => .seq (hI.appendMarker_preserves rfl) fun _ =>
      .seq hI.newLabel_preserves fun _ => .seq (hI.lowerBranches_preserves hl) fun _ =>
        hI.appendLabel_preserves

/-! ## Loops -/

omit hl in
theorem prepareLoop_preserves : Preserves I (prepareLoop n) :=
  .seq Ensures.get.preserves fun _ =>
    .ite (fun _ => .seq hI.cache_preserves fun _ => hI.prepareAssigned_preserves) fun _ =>
      hI.prepareAssigned_preserves

omit hl in
theorem openSymmetry_preserves {start exit : Label} :
    Preserves I (openSymmetry n start exit actives) :=
  .seq (hI.appendMarker_preserves rfl) fun _ =>
    .seq (.modify fun r => hI.context r.tree r.bindings r.regions _ r.labels)
      fun _ => .pure trivial

omit hl in
theorem closeSymmetry_preserves {symmetry : Nat} :
    Preserves I (closeSymmetry symmetry actives) :=
  .seq mergePairs_preserves fun _ => .seq (hI.appendMarker_preserves rfl) fun _ =>
    .forM fun _ _ => hI.bind_preserves

theorem lowerLoopTest_preserves : Preserves I (lowerLoopTest lower n success failure next) :=
  .seq Ensures.get.preserves fun _ => .seq Ensures.required.preserves fun _ =>
    hI.lowerCondition_preserves hl

theorem lowerPretested_preserves : Preserves I (lowerPretested lower n) := by
  refine .seq hI.newLabel_preserves fun _ => .seq hI.newLabel_preserves fun _ =>
    .seq Ensures.get.preserves fun _ => .seq (lowerOptional_preserves hl) fun _ =>
      .seq hI.prepareLoop_preserves fun _ => .seq (lowerBeforeCondition_preserves hl) fun _ =>
        .seq hI.newLabel_preserves fun _ => .seq (hI.lowerLoopTest_preserves hl) fun _ =>
          .seq (hI.appendMarker_preserves rfl) fun _ => .seq Ensures.get.preserves fun _ =>
            .seq (hI.within_preserves ?_) fun _ => .seq hI.appendLabel_preserves fun _ =>
              .seq (hI.appendMarker_preserves rfl) fun _ => .pure trivial
  exact .seq hI.appendLabel_preserves fun _ => .seq hI.openSymmetry_preserves fun _ =>
    .seq (lowerLoopBody_preserves hl) fun _ => .seq Ensures.get.preserves fun _ =>
      .seq (lowerOptional_preserves hl) fun _ => .seq hI.closeSymmetry_preserves fun _ =>
        .seq (lowerBeforeCondition_preserves hl) fun _ => .seq hI.newLabel_preserves fun _ =>
          .seq (hI.lowerLoopTest_preserves hl) fun _ => hI.keepAlive_preserves

theorem lowerForever_preserves : Preserves I (lowerForever lower n) := by
  refine .seq hI.prepareLoop_preserves fun _ => .seq (hI.appendMarker_preserves rfl) fun _ =>
    .seq hI.newLabel_preserves fun _ => .seq hI.newLabel_preserves fun _ =>
      .seq hI.appendLabel_preserves fun _ => .seq hI.newLabel_preserves fun _ =>
        .seq Ensures.get.preserves fun _ => .seq (hI.within_preserves ?_) fun _ =>
          .seq hI.appendJump_preserves fun _ => .seq (hI.appendMarker_preserves rfl) fun _ =>
            hI.appendLabel_preserves
  exact .seq hI.appendLabel_preserves fun _ => .seq hI.openSymmetry_preserves fun _ =>
    .seq (lowerLoopBody_preserves hl) fun _ => hI.closeSymmetry_preserves

omit hl in
theorem lowerControl_preserves {c : LoopControl} : Preserves I (lowerControl n c) := by
  have restored {save : Nat} : Preserves I (do
      let _ ← appendMarker (.restoreState save)) :=
    .seq (hI.appendMarker_preserves rfl) fun _ => .pure trivial
  refine .seq Ensures.get.preserves fun _ => .seq Ensures.required.preserves fun _ =>
    .seq Ensures.required.preserves fun _ => .seq mergePairs_preserves fun _ =>
      .seq (hI.appendMarker_preserves rfl) fun _ => .seq (hI.appendMarker_preserves rfl) fun _ => ?_
  cases c with
  | stop => exact .seq hI.appendJump_preserves fun _ => restored
  | next => exact .seq hI.appendJump_preserves fun _ => restored

/-! ## Nodes -/

theorem lowerNode_preserves : Preserves I (lowerNode lower n) := by
  refine .seq Ensures.get.preserves fun r => ?_
  have valued {g : Generating ValueId} (hg : Preserves I g) : Preserves I (some <$> g) :=
    .map hg fun _ => id
  have plain {g : Generating Unit} (hg : Preserves I g) : Preserves I (do
      g
      return (none : Option ValueId)) :=
    .seq hg fun _ => .pure trivial
  cases r.tree.kind n with
  | scope | parenthesis =>
    exact .seq Ensures.get.preserves fun _ => lowerStatements_preserves hl
  | number => exact valued (hI.create_preserves trivial)
  | reference => exact valued hI.valueOf_preserves
  | operator o =>
    dsimp only
    split
    · exact valued (hI.lowerArithmetic_preserves hl)
    · exact valued (hI.lowerAssignment_preserves hl)
    · exact .unsupported
    · exact .unsupported
  | link => exact valued (hI.lowerLink_preserves hl)
  | offset => exact valued (hI.lowerOffset_preserves hl)
  | call => exact valued (hI.lowerCall_preserves hl)
  | ifBranch => exact plain (hI.lowerChain_preserves hl)
  | loop c forever =>
    exact .ite (fun _ => plain (hI.lowerForever_preserves hl)) fun _ =>
      plain (hI.lowerPretested_preserves hl)
  | control => exact plain hI.lowerControl_preserves
  | ret => exact plain (hI.lowerReturn_preserves hl)
  | stackAddress _ bytes _ => exact valued (hI.array bytes)
  | _ => exact .refuse

end Parts

/-! ## Functions -/

theorem lowerWithin_preserves {fuel : Nat} : ∀ n, Preserves I (lowerWithin fuel n) := by
  induction fuel with
  | zero => exact fun _ => .throw
  | succ fuel ih => exact fun _ => hI.lowerNode_preserves ih

theorem bindParameter_preserves : Preserves I (bindParameter v) :=
  .seq formatOfVariable_preserves fun _ => .seq (hI.create_preserves trivial) fun _ =>
    .seq hI.bind_preserves fun _ => .pure trivial

theorem bindParameters_preserves : Preserves I bindParameters :=
  .seq .ask fun _ => .seq (Ensures.mapM fun _ _ => formatOfVariable_preserves).preserves fun _ =>
    .seq checkArguments_preserves fun _ =>
      .seq (Ensures.mapM fun _ _ => hI.bindParameter_preserves).preserves fun _ =>
        .seq (hI.append_preserves rfl) fun _ => .pure trivial

/-- **Lowering a function keeps the property.** -/
theorem lowerFunction_preserves : Preserves I (lowerFunction n) :=
  .seq hI.bindParameters_preserves fun _ =>
    .seq (.seq Ensures.get.preserves fun _ => hI.lowerWithin_preserves n) fun _ =>
      .seq Ensures.get.preserves fun _ =>
        .ite (fun _ => .seq (hI.append_preserves rfl) fun _ => .pure trivial) fun _ => .pure trivial

end LoweringInvariant

end Codegen
