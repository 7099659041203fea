import Codegen.Register.Set

/-!
# The register file

A `RegisterFile` knows which value owns each register of one function. Free registers are handed
out volatile ones first; when a bank is full, a clock that goes round the bank names the next
register to evict. Locked registers are never evicted.

* `RegisterFile.free?`, `RegisterFile.freeOfClass?`: a register that nothing owns;
* `RegisterFile.evictable?`: one sweep of the clock;
* `assign`, `release`, `lock`, `unlock`: ownership and locks;
* `Occupancy`: a snapshot of the owners, taken and restored.
-/

namespace Codegen

/-- The number of a value cell. -/
abbrev ValueId := Nat

/-! ## Errors -/

/-- Why a request to the register file fails. -/
inductive RegisterError
  | noneAvailable
  | notAllocated
  | invalid
  | lockUnderflow
  /-- The lock count of a register is at its limit of 255. -/
  | lockOverflow
deriving DecidableEq

/-- The text of a register error. -/
def RegisterError.message : RegisterError → String
  | noneAvailable => "No registers available"
  | notAllocated => "Register is not allocated"
  | invalid => "Invalid register"
  | lockUnderflow => "Register lock count underflow"
  | lockOverflow => "Register lock count overflow"

/-- The name of a register error. -/
def RegisterError.title : RegisterError → String
  | noneAvailable => "NoRegistersAvailable"
  | notAllocated => "RegisterNotAllocated"
  | invalid => "InvalidRegister"
  | lockUnderflow => "LockCountUnderflow"
  | lockOverflow => "LockCountOverflow"

/-! ## The file -/

/-- Which registers are in use. -/
structure Occupancy where
  used : RegisterSet
  owners : Array (Option ValueId)
deriving Inhabited

/-- The registers of one function: a fixed shape and the state of each register. -/
structure RegisterFile where
  /-- The number of registers of a bank. -/
  width : Nat
  /-- The number of registers of all banks. -/
  size : Nat
  /-- The registers that values may be put in. -/
  allocatable : RegisterSet
  /-- The registers that a call may overwrite. -/
  volatile : RegisterSet
  used : RegisterSet
  /-- The registers that may not be evicted. -/
  locked : RegisterSet
  /-- The registers that were ever written. -/
  clobbered : RegisterSet
  /-- The register of each bank that the next sweep looks at first. -/
  clocks : Vector Nat 4
  owners : Array (Option ValueId)
  /-- How often each register is locked. -/
  locks : Array Nat
deriving Inhabited

namespace RegisterFile

/-- An empty file of that many registers per bank. -/
def ofShape (width banks : Nat) (allocatable volatile : RegisterSet) : RegisterFile where
  width
  size := width * banks
  allocatable
  volatile
  used := .empty
  locked := .empty
  clobbered := .empty
  clocks := .replicate 4 0
  owners := .replicate (width * banks) none
  locks := .replicate (width * banks) 0

/-- An empty file, if it is not wider than 64 registers or 4 banks. -/
def ofShape? (width banks : Nat) (allocatable volatile : RegisterSet) : Option RegisterFile :=
  if width ≤ Register.bankSize ∧ banks ≤ Register.bankCount then
    some (ofShape width banks allocatable volatile)
  else none

/-- The place of a register in the tables of the file. -/
def index (f : RegisterFile) (r : Register) : Nat := r.bank * f.width + r.id

/-- The register of a place in the tables. -/
def registerAt (f : RegisterFile) (i : Nat) : Register := ⟨i / f.width, i % f.width⟩

/-! ## Search -/

/-- A free register of one class; `none` inside for a full class, outside for a bank too high. -/
def freeOfClass? (f : RegisterFile) (bank : Nat) (volatile : Bool) (exclude : RegisterSet) :
    Option (Option Register) :=
  (RegisterSet.firstOfBank? bank f.width).map fun whole =>
    let all := f.allocatable.inter whole
    let free := if volatile then all.inter f.volatile else all.diff f.volatile
    (free.first? bank (f.used.union exclude)).map (Register.mk bank)

/-- A free register, volatile ones first. -/
def free? (f : RegisterFile) (bank : Nat) (exclude : RegisterSet) : Option (Option Register) :=
  match f.freeOfClass? bank true exclude with
  | some none => f.freeOfClass? bank false exclude
  | found => found

/-- May the register be evicted? -/
def isEvictable (f : RegisterFile) (exclude : RegisterSet) (r : Register) : Bool :=
  f.allocatable.contains r && f.used.contains r && !f.locked.contains r && !exclude.contains r

/-- Sweeps over that many registers, beginning at the clock, and stops behind the first hit. -/
def sweep (f : RegisterFile) (bank : Nat) (exclude : RegisterSet) :
    Nat → Nat → Option Register × Nat
  | 0, clock => (none, clock)
  | rest + 1, clock =>
    let next := (clock + 1) % f.width
    if f.isEvictable exclude ⟨bank, clock⟩ then (some ⟨bank, clock⟩, next)
    else f.sweep bank exclude rest next

/-- The next register to evict and the file with its clock moved on. -/
def evictable? (f : RegisterFile) (bank : Nat) (exclude : RegisterSet) :
    Option Register × RegisterFile :=
  if bank < Register.bankCount then
    let (found, clock) := f.sweep bank exclude f.width (f.clocks.getD bank 0)
    (found, { f with clocks := f.clocks.setIfInBounds bank clock })
  else (none, f)

/-! ## Ownership -/

/-- Gives a register to a value; a previous owner loses it. -/
def assign (f : RegisterFile) (r : Register) (owner : ValueId) :
    Except RegisterError RegisterFile :=
  if f.size ≤ f.index r then .error .invalid
  else
    .ok { f with
      used := f.used.insert r
      clobbered := f.clobbered.insert r
      owners := f.owners.setIfInBounds (f.index r) (some owner) }

/-- Takes a register from its owner, with all its locks. -/
def release (f : RegisterFile) (r : Register) : Except RegisterError RegisterFile :=
  if f.size ≤ f.index r then .error .invalid
  else if !f.used.contains r then .error .notAllocated
  else
    .ok { f with
      used := f.used.erase r
      locked := f.locked.erase r
      owners := f.owners.setIfInBounds (f.index r) none
      locks := f.locks.setIfInBounds (f.index r) 0 }

/-- Protects a register from eviction once more. -/
def lock (f : RegisterFile) (r : Register) : Except RegisterError RegisterFile :=
  if f.size ≤ f.index r then .error .invalid
  else if !f.used.contains r then .error .notAllocated
  else
    let count := f.locks.getD (f.index r) 0
    if 255 ≤ count then .error .lockOverflow
    else
      .ok { f with
        locks := f.locks.setIfInBounds (f.index r) (count + 1)
        locked := f.locked.insert r }

/-- Takes back one lock; without locks the register may be evicted again. -/
def unlock (f : RegisterFile) (r : Register) : Except RegisterError RegisterFile :=
  if f.size ≤ f.index r then .error .invalid
  else
    match f.locks.getD (f.index r) 0 with
    | 0 => .error .lockUnderflow
    | count + 1 =>
      .ok { f with
        locks := f.locks.setIfInBounds (f.index r) count
        locked := if count = 0 then f.locked.erase r else f.locked }

/-- Takes back every lock. -/
def unlockAll (f : RegisterFile) : RegisterFile :=
  { f with locked := f.locked.clear, locks := .replicate f.size 0 }

/-- Records a write that does not change the owner. -/
def clobber (f : RegisterFile) (r : Register) : RegisterFile :=
  { f with clobbered := f.clobbered.insert r }

/-- The owner of a register. -/
def owner? (f : RegisterFile) (r : Register) : Option ValueId :=
  if f.index r < f.size then (f.owners.getD (f.index r) none) else none

/-- The lowest register that a value owns. -/
def registerOf? (f : RegisterFile) (owner : ValueId) : Option Register :=
  (f.owners.findIdx? (· == some owner)).map f.registerAt

/-- The numbers of used, locked and allocatable registers of a bank. -/
def usage (f : RegisterFile) (bank : Nat) : Nat × Nat × Nat :=
  (f.used.count bank, f.locked.count bank, f.allocatable.count bank)

/-! ## Snapshots -/

/-- The owned registers with their owners, in the order of the tables. -/
def occupants (f : RegisterFile) : List (Register × ValueId) :=
  (f.owners.toList.zipIdx).filterMap fun (owner, i) => owner.map (f.registerAt i, ·)

/-- The present owners. -/
def occupancy (f : RegisterFile) : Occupancy := ⟨f.used, f.owners⟩

/-- Returns to earlier owners; locks are dropped. -/
def restore (f : RegisterFile) (o : Occupancy) : RegisterFile :=
  { f with used := o.used, owners := o.owners }.unlockAll

/-- The file as it was made. -/
def reset (f : RegisterFile) : RegisterFile :=
  { f with
    used := f.used.clear
    locked := f.locked.clear
    clobbered := f.clobbered.clear
    clocks := .replicate 4 0
    owners := .replicate f.size none
    locks := .replicate f.size 0 }

end RegisterFile

end Codegen
