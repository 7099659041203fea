import Codegen.Placement.Operand

/-!
# Transfers between places

A transfer writes the value of one place into another. A parallel move makes a set of assignments
as if at once: those whose destination nothing reads any more go first, and a cycle is broken by an
exchange or through a register that no value lives in.

* `Generating.transfer`: one place to another;
* `Generating.moveInto`: a value into a place;
* `Assignment`, `Generating.parallelMove`: many values into their places at once.
-/

namespace Codegen

namespace Generating

/-! ## Single transfers -/

/-- The register that a transfer of a format may overwrite. -/
def reservedScratch (f : Format) (cause : Inconsistency) : Generating Register := do
  required cause ((← get).target.scratchFor? f)

/-- The address of a constant or of a place in memory. -/
def memorySource : Handle → Generating MemoryOperand
  | .constant n => return .displaced (.constant (← constantData n)) 0
  | h => memoryOperand h

/-- Writes the value of a place into memory. A word goes from memory to memory over the stack,
which leaves all registers as they are. -/
def transferToMemory (m : MemoryOperand) (source : Handle) (f : Format) : Generating Unit := do
  let words := (← get).isX64 && !f.isDecimal
  let viaStack : Generating Unit := do
    let s ← memorySource source
    emit .push [.memory s]
    emit .pop [.memory m]
  let viaRegister : Generating Unit := do
    let r ← reservedScratch f .noScratch
    transferToRegister r source f
    emit .move [.memory m, .register r]
  match source with
  | .register r => emit .move [.memory m, .register r]
  | .constant (.integer w) =>
    if words && Word.fitsIn w 32 then emit .move [.memory m, .immediate w]
    else if words then viaStack
    else viaRegister
  | _ => if words then viaStack else viaRegister

/-- Writes the value of one place into another. -/
def transfer (destination source : Handle) (f : Format) : Generating Unit := do
  match destination with
  | .register r => transferToRegister r source f
  | _ => transferToMemory (← memoryOperand destination) source f

/-- Writes a value into a place. -/
def moveInto (destination : Handle) (v : ValueId) : Generating Unit := do
  let f ← formatOf v
  match destination with
  | .register r => transferToRegister r (← handleOf v) f
  | _ =>
    let value ←
      if (← get).isX64 && !f.isDecimal then operand v .registerOrImmediate
      else Operand.register <$> load v
    emit .move [.memory (← memoryOperand destination), value]

end Generating

/-! ## Parallel moves -/

/-- An assignment of the value at one place to another place. -/
structure Assignment where
  destination : Handle
  source : Handle
  format : Format
deriving DecidableEq, Inhabited

namespace Assignment

/-- Is the destination of an assignment not the source of another one, by place in the list? -/
def isFree (pending : List Assignment) (i : Nat) (a : Assignment) : Bool :=
  pending.zipIdx.all fun (b, j) => j == i || b.source != a.destination

/-- The first assignment that nothing keeps from being made. -/
def firstFree? (pending : List Assignment) : Option Nat :=
  pending.zipIdx.findIdx? fun (a, i) => isFree pending i a

/-- What is left to do when the places of an assignment were exchanged. -/
def afterExchange (x y : Handle) (rest : List Assignment) : List Assignment :=
  (rest.map fun a =>
    if a.source = x then { a with source := y }
    else if a.source = y then { a with source := x }
    else a).filter fun a => a.destination != a.source

/-- The assignments that read one place, reading another one instead. -/
def redirect (x y : Handle) (pending : List Assignment) : List Assignment :=
  pending.map fun a => if a.source = x then { a with source := y } else a

end Assignment

namespace Generating

/-- A place that holds its value by itself: a value at a computed address is loaded first. -/
def plainSource (v : ValueId) : Generating Handle := do
  match ← handleOf v with
  | .memory .. | .scaledMemory .. | .expression .. | .inline .. | .modifier _ | .none =>
    return .register (← load v)
  | h => return h

/-- The assignment of a value to a place, unless the value is there. -/
def assignment? (move : Handle × ValueId) : Generating (Option Assignment) := do
  let f ← formatOf move.2
  let source ← plainSource move.2
  return if source = move.1 then none else some ⟨move.1, source, f⟩

/-- Spills the value in the destination of an assignment, if it is needed later and neither read
nor replaced by the assignments. -/
def saveDestination (pending : List Assignment) (kept : List ValueId) (a : Assignment) :
    Generating Unit := do
  match a.destination with
  | .register r =>
    match ← owner? r with
    | none => pure ()
    | some v =>
      let needed := (← isValid v ((← get).position + 1)) && (← handleOf v).register? = some r
      let isRead := pending.any (·.source == .register r)
      if needed && !isRead && !kept.contains v then spill r
  | _ => pure ()

/-- The operand of a place. -/
def placeOperand : Handle → Generating Operand
  | .register r => return .register r
  | h => return .memory (← memoryOperand h)

/-- Can two places exchange their words? -/
def isExchangeable (x64 : Bool) (a : Assignment) : Bool :=
  x64 && !a.format.isDecimal && (a.destination.register?.isSome || a.source.register?.isSome)

/-- Breaks a cycle at its first assignment. -/
def breakCycle (a : Assignment) (rest : List Assignment) : Generating (List Assignment) := do
  if isExchangeable (← get).isX64 a then
    let left ← placeOperand a.destination
    let right ← placeOperand a.source
    emit .exchange [left, right]
    return Assignment.afterExchange a.destination a.source rest
  else
    let r ← reservedScratch a.format .memoryCycle
    transfer (.register r) a.destination a.format
    return Assignment.redirect a.destination (.register r) (a :: rest)

/-- Makes assignments as if at once, in at most that many steps. -/
def assignAll : Nat → List Assignment → Generating Unit
  | _, [] => pure ()
  | 0, _ => throw (.crash .missing)
  | fuel + 1, a :: rest => do
    let pending := a :: rest
    match Assignment.firstFree? pending with
    | some i =>
      (pending[i]?).forM fun b => transfer b.destination b.source b.format
      assignAll fuel (pending.eraseIdx i)
    | none => assignAll fuel (← breakCycle a rest)

/-- Moves values into places as if at once. Values in the destinations are spilled if they are
needed later, except for those that the moves replace. Each step makes an assignment or breaks a
cycle, which sets one free. -/
def parallelMove (moves : List (Handle × ValueId)) (replaced : List ValueId) :
    Generating Unit := do
  let pending ← moves.filterMapM assignment?
  pending.forM fun a => a.source.register?.forM lockUsed
  pending.forM (saveDestination pending (moves.map (·.2) ++ replaced))
  assignAll (2 * pending.length) pending

end Generating

end Codegen
