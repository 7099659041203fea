import Codegen.Routine.Basic

/-!
# Registers for values

Registers are handed out volatile ones first. When a bank is full, a value is spilled to a fresh
stack slot to make room. A register that was handed out stays locked until the present instruction
is built.

* `Generating.allocate`, `allocateResult`: a register for a value;
* `Generating.place`: makes a register the home of a value;
* `Generating.spill`: frees a register.
-/

namespace Codegen.Generating

/-- The value that owns a register. -/
def owner? (r : Register) : Generating (Option ValueId) := return (← get).registers.owner? r

/-- Is a register in use? -/
def isUsed (r : Register) : Generating Bool := return (← get).registers.used.contains r

/-- May a call overwrite a register? -/
def isVolatile (r : Register) : Generating Bool := return (← get).registers.volatile.contains r

/-- A free register of a bank, volatile ones first. -/
def free? (bank : Nat) : Generating (Option Register) :=
  ask fun r => Fault.expect .missing (r.registers.free? bank .empty)

/-- A free register of a bank that calls preserve. -/
def freePreserved? (bank : Nat) : Generating (Option Register) :=
  ask fun r => Fault.expect .missing (r.registers.freeOfClass? bank false .empty)

/-- Protects a register until the present instruction is built. -/
def lock (r : Register) : Generating Unit := changeRegisters (·.lock r)

/-- Protects a register in use. -/
def lockUsed (r : Register) : Generating Unit := do
  if ← isUsed r then lock r

/-- Makes a register the home of a value. -/
def place (v : ValueId) (r : Register) : Generating Unit := do
  changeRegisters (·.assign r v)
  setHandle v (.register r)

/-- Frees a register. A value in it that is still needed goes to a fresh stack slot. -/
def spill (r : Register) : Generating Unit := do
  match ← owner? r with
  | none => pure ()
  | some v =>
    if (← handleOf v).register? = some r ∧ (← isValid v (← get).position) then
      let k ← modifyGet fun s => (s.temporaries, { s with temporaries := s.temporaries + 1 })
      emit .move [.memory (.displaced (.slot (.temporary k)) 0), .register r]
      setHandle v (.temporarySlot k .qword)
      modify fun s => { s with spills := s.spills + 1 }
    changeRegisters (·.release r)

/-- The register that is to make room in a full bank. -/
def victim (bank : Nat) : Generating Register := fun s =>
  match s.registers.evictable? bank .empty with
  | (some r, registers) => .ok r { s with registers }
  | (none, _) => .error (.ofRegisterError .noneAvailable) s

/-- A locked register of a bank for a value, whose handle stays as it is. -/
def allocate (bank : Nat) (v : ValueId) : Generating Register := do
  let r ←
    match ← free? bank with
    | some r => pure r
    | none =>
      let r ← victim bank
      spill r
      pure r
  changeRegisters (·.assign r v)
  lock r
  return r

/-- A locked register that becomes the home of a value. -/
def allocateResult (v : ValueId) : Generating Register := do
  let r ← allocate (← formatOf v).bank v
  setHandle v (.register r)
  return r

/-- A locked register that is free again after the present instruction. -/
def scratch (f : Format) : Generating Register := do
  allocate f.bank (← createBriefly .none f)

end Codegen.Generating
