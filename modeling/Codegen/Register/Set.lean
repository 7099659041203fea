/-!
# Registers and sets of registers

A register is a number within a bank: bank 0 holds the general registers, bank 1 the media
registers. A `RegisterSet` holds registers of four banks of 64, one mask of bits for each bank.

* `RegisterSet.contains`, `insert`, `erase`, `union`, `inter`, `diff`: membership and algebra;
* `RegisterSet.toList`: the members in ascending order;
* `RegisterSet.first?`, `RegisterSet.count`: search and count within one bank.
-/

namespace Codegen

/-! ## Registers -/

/-- A machine register: its number within a bank. -/
structure Register where
  bank : Nat
  id : Nat
deriving DecidableEq, Inhabited, Hashable

namespace Register

/-- The number of register banks. -/
def bankCount : Nat := 4

/-- The number of registers that a set can hold of one bank. -/
def bankSize : Nat := 64

/-- The bank of the general registers. -/
def generalBank : Nat := 0

/-- The bank of the media registers. -/
def mediaBank : Nat := 1

/-- The general register of that number. -/
def general (id : Nat) : Register := ⟨generalBank, id⟩

/-- The media register of that number. -/
def media (id : Nat) : Register := ⟨mediaBank, id⟩

/-- Is it a media register? -/
def isMedia (r : Register) : Bool := r.bank == mediaBank

/-- Can a set of registers hold it? -/
def isStorable (r : Register) : Bool := r.bank < bankCount && r.id < bankSize

/-- Registers are ordered by bank, then by number. -/
def le (a b : Register) : Bool := a.bank < b.bank || a.bank == b.bank && a.id ≤ b.id

/-- The name of a register inside messages about machine operations. -/
def describe (r : Register) : String := s!"AsmReg \x7b bank: {r.bank}, id: {r.id} \x7d"

end Register

/-! ## Sets of registers -/

/-- A set of registers, one mask for each bank. -/
structure RegisterSet where
  masks : Vector (BitVec 64) 4
deriving DecidableEq

namespace RegisterSet

/-- The set without members. -/
def empty : RegisterSet := ⟨.replicate 4 0⟩

instance : Inhabited RegisterSet := ⟨empty⟩

/-- The mask of a bank; a bank beyond the last one has no registers. -/
def mask (s : RegisterSet) (bank : Nat) : BitVec 64 := s.masks.getD bank 0

/-- The mask of one register number. -/
def bit (id : Nat) : BitVec 64 := 1#64 <<< id

/-- Is the register a member? -/
def contains (s : RegisterSet) (r : Register) : Bool :=
  r.isStorable && (s.mask r.bank).getLsbD r.id

/-- Adds a register; one that no set can hold is ignored. -/
def insert (s : RegisterSet) (r : Register) : RegisterSet :=
  if r.isStorable then ⟨s.masks.setIfInBounds r.bank (s.mask r.bank ||| bit r.id)⟩ else s

/-- Takes a register out. -/
def erase (s : RegisterSet) (r : Register) : RegisterSet :=
  if r.isStorable then ⟨s.masks.setIfInBounds r.bank (s.mask r.bank &&& ~~~ bit r.id)⟩ else s

/-- Takes all registers out. -/
def clear (_ : RegisterSet) : RegisterSet := empty

/-- The registers of either set. -/
def union (s t : RegisterSet) : RegisterSet := ⟨s.masks.zipWith (· ||| ·) t.masks⟩

/-- The registers of both sets. -/
def inter (s t : RegisterSet) : RegisterSet := ⟨s.masks.zipWith (· &&& ·) t.masks⟩

/-- The registers of the first set that are not in the second. -/
def diff (s t : RegisterSet) : RegisterSet := ⟨s.masks.zipWith (fun a b => a &&& ~~~ b) t.masks⟩

/-- The set of the listed registers. -/
def ofList (rs : List Register) : RegisterSet := rs.foldl insert empty

/-- The first registers of a bank; none for a bank that no set can hold. -/
def firstOfBank? (bank count : Nat) : Option RegisterSet :=
  if bank < Register.bankCount then
    some ⟨empty.masks.setIfInBounds bank
      (if count < 64 then bit count - 1#64 else BitVec.allOnes 64)⟩
  else none

/-- The numbers of the bits of a mask, at most that many. The lowest bit is taken and cleared until
none is left. -/
def bits : Nat → BitVec 64 → List Nat
  | 0, _ => []
  | fuel + 1, m => if m = 0 then [] else m.ctz.toNat :: bits fuel (m &&& (m - 1#64))

/-- The members of one bank by their numbers, ascending. -/
def ids (s : RegisterSet) (bank : Nat) : List Nat := bits Register.bankSize (s.mask bank)

/-- The members in ascending order. -/
def toList (s : RegisterSet) : List Register :=
  (List.range Register.bankCount).flatMap fun bank => (s.ids bank).map (Register.mk bank)

/-- The number of members of a bank. -/
def count (s : RegisterSet) (bank : Nat) : Nat := (s.mask bank).cpop.toNat

/-- The lowest member of a bank that is not excluded. -/
def first? (s : RegisterSet) (bank : Nat) (exclude : RegisterSet) : Option Nat :=
  let available := s.mask bank &&& ~~~ exclude.mask bank
  if available = 0 then none else some available.ctz.toNat

end RegisterSet

end Codegen
