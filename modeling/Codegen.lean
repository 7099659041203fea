import Codegen.Compilation
import Codegen.Preparation
import Codegen.Register.Name
import Codegen.Surface.Elaborate
import Codegen.Tree.Edit
import Codegen.Tree.Outline
import Codegen.Proofs.Generating
import Codegen.Proofs.Machine.Basic
import Codegen.Proofs.Register.File
import Codegen.Proofs.Straight.Meaning
import Codegen.Proofs.Straight.Crowding
import Codegen.Proofs.Steps
import Codegen.Proofs.Lowering.Parts
import Codegen.Proofs.Instruction.Jump
import Codegen.Proofs.Stream.Open
import Codegen.Proofs.Stream.Lowering
import Codegen.Proofs.Stream.Closed
import Codegen.Proofs.Stream.Steady
import Codegen.Proofs.Stream.Build
import Codegen.Proofs.Stream.Output
import Codegen.Proofs.Tree.Forest
import Codegen.Proofs.Tree.Shape
import Codegen.Proofs.Tree.Standing
import Codegen.Proofs.Lowering.Shaped
import Codegen.Proofs.Lowering.Shown
import Codegen.Proofs.Round.Lowering
import Codegen.Proofs.Round.Loop
import Codegen.Proofs.Round.Body
import Codegen.Proofs.Tree.Read
import Codegen.Proofs.Round.Condition
import Codegen.Proofs.Round.Leaving
import Codegen.Proofs.Ensures
import Codegen.Proofs.Value.Handles
import Codegen.Proofs.LoadStore.Form
import Codegen.Proofs.LoadStore.Selection
import Codegen.Proofs.Compilation
import Codegen.Proofs.Lowering.Preserved
import Codegen.Proofs.LoadStore.Output
import Codegen.Proofs.Frame.Machine
import Codegen.Proofs.Frame.Saving
import Codegen.Proofs.Frame.Around
import Codegen.Proofs.Frame.Layout
import Codegen.Proofs.Frame.Enclosed
import Codegen.Proofs.Frame.Discipline
import Codegen.Proofs.Frame.Convention
import Codegen.Proofs.Control.Walk
import Codegen.Proofs.Control.Structured
import Codegen.Proofs.Control.Denotes
import Codegen.Proofs.Control.Follow
import Codegen.Proofs.Control.Steps
import Codegen.Proofs.Control.Part
import Codegen.Proofs.Control.Test
import Codegen.Proofs.Control.Statement
import Codegen.Proofs.Control.Function
import Codegen.Proofs.Evaluation.Trace
import Codegen.Proofs.Evaluation.Normal
import Codegen.Proofs.Symbol.Distinct
import Codegen.Proofs.Value.Systems
import Codegen.Proofs.Value.Directions
import Codegen.Proofs.Register.Ledger
import Codegen.Proofs.Tree.Edits
import Codegen.Proofs.Instruction.Run
import Codegen.Proofs.Instruction.Simplified
import Codegen.Proofs.Lowering.ShortCircuit
import Codegen.Batch
import Codegen.Proofs.Stream.Ending
import Codegen.Proofs.Batch.Report
import Codegen.Proofs.Batch.Schedule
import Codegen.Proofs.Value.Layers
import Codegen.Proofs.Selection.Placing
import Codegen.Proofs.Lifetime.Covered
import Codegen.Proofs.Lifetime.Held
import Codegen.Proofs.Frame.Room
import Codegen.Proofs.Placement.Simultaneous
import Codegen.Proofs.Evaluation.Agreement
import Codegen.Proofs.Register.Apart
import Codegen.Proofs.Symbol.Refused
import Codegen.Proofs.Register.Clock
import Codegen.Proofs.Instruction.Normal
import Codegen.Proofs.Placement.Working
import Codegen.Proofs.Placement.Found
import Codegen.Proofs.Selection.Product
import Codegen.Proofs.Selection.Evacuation
import Codegen.Proofs.Lowering.Leaders
import Codegen.Proofs.Register.Owned
import Codegen.Proofs.Selection.Owners
import Codegen.Proofs.Symbol.Supertypes
import Codegen.Proofs.Lowering.Again
import Codegen.Proofs.Control.Moments
import Codegen.Proofs.Symbol.Hints
import Codegen.Proofs.Tree.Below
import Codegen.Proofs.Evaluation.Verdict
import Codegen.Proofs.Evaluation.Thinning
import Codegen.Proofs.Evaluation.Sweep
import Codegen.Proofs.Evaluation.Probes
import Codegen.Proofs.Symbol.Shared
import Codegen.Proofs.Symbol.References
import Codegen.Proofs.Listing.Immediate
