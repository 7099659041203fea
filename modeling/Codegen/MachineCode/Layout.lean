/-!
# Machine code and its layout

An instruction is a prefix, an extension byte, an opcode, a byte that names a register and an
address, and an immediate. Where it refers to a label, the distance is left open: the instruction
becomes a chunk that is completed when all addresses are known.

Jumps have a short form for near targets. All chunks that refer to a label begin as long as they
can get: a jump or a call might need its target in memory, an address relative to the code might
need a prefix. Then sweeps over the code shorten them: a jump becomes short when its distance, less
the bytes that the sweep gained in front of a target ahead, fits one byte. A jump that is short
stays short. The number of sweeps is limited, so the estimates to begin with decide how far a chain
of jumps over jumps is shortened.

* `littleEndian`: the bytes of an integer;
* `Address`: what an instruction addresses;
* `Chunk`: an instruction whose distance to a label may be open;
* `Form.chunk`, `shortForm`: the chunks of the two shapes of instructions;
* `Code`: chunks with the places of the labels;
* `Code.sweep`: one sweep;
* `Code.settle`: at most five sweeps;
* `Code.bytes`: the machine code.
-/

namespace Codegen.MachineCode

/-- The bytes of an integer, the lowest first. -/
def littleEndian (count : Nat) (i : Int) : List UInt8 :=
  let n := (i % (1 <<< (8 * count) : Nat)).toNat
  (List.range count).map fun k => .ofNat (n >>> (8 * k) % 256)

/-- Does an integer fit that many bytes with a sign? -/
def fitsBytes (count : Nat) (i : Int) : Bool :=
  let half : Int := (1 <<< (8 * count - 1) : Nat)
  i < half && -half ≤ i

/-! ## Chunks -/

/-- The number of a label; labels are counted from 1 in the order in which they are met. -/
abbrev LabelNumber := Nat

/-- A piece of code or data. -/
inductive Chunk
  | fixed (bytes : List UInt8)
  /-- Code around the distance to a label from the end of the code. -/
  | relative (before : List UInt8) (target : LabelNumber) (after : List UInt8)
  /-- A jump, with the code of its condition if it has one. -/
  | jump (condition? : Option Nat) (target : LabelNumber)
  | call (target : LabelNumber)
  /-- An instruction that does not exist. -/
  | impossible
deriving DecidableEq, Inhabited

/-! ## Addresses -/

/-- What an instruction addresses beside its register. -/
inductive Address
  | register (id : Nat)
  /-- Memory at a displacement from a base. -/
  | based (base : Nat) (displacement : Int)
  /-- Memory at a scaled index, with a base if there is one. The scale is a power of two. -/
  | indexed (base? : Option Nat) (index exponent : Nat) (displacement : Int)
  /-- Memory at a label. -/
  | label (target : LabelNumber)
deriving DecidableEq, Inhabited

/-- The three lower bits of a register number; the fourth one is in the extension byte. -/
def low (id : Nat) : Nat := id % 8

/-- The fourth bit of a register number. -/
def high (id : Nat) : Nat := id / 8 % 2

/-- A byte of two, three and three bits. -/
def fields (two three rest : Nat) : UInt8 := .ofNat (64 * two + 8 * three + rest)

/-- The number that stands for no index, and for an index byte in the place of a base. -/
def noIndex : Nat := 4

/-- The number that stands for no base. -/
def noBase : Nat := 5

/-- How a displacement from a base is written: its mode, and its bytes. A base whose lower bits
stand for no base needs a displacement. -/
def displacement (base : Nat) (d : Int) : Nat × List UInt8 :=
  if d = 0 ∧ low base ≠ noBase then (0, [])
  else if fitsBytes 1 d then (1, littleEndian 1 d)
  else (2, littleEndian 4 d)

namespace Address

/-- The bits that an address adds to the extension byte. -/
def extension : Address → Nat
  | register id => high id
  | based base _ => high base
  | indexed base? index _ _ => 2 * high index + high (base?.getD 0)
  | label _ => 0

/-- The bytes of an address, with the register that is named beside it. -/
def bytes (reg : Nat) : Address → List UInt8
  | register id => [fields 3 (low reg) (low id)]
  | based base d =>
    let (mode, ds) := displacement base d
    if low base = noIndex then fields mode (low reg) noIndex :: fields 0 noIndex (low base) :: ds
    else fields mode (low reg) (low base) :: ds
  | indexed (some base) index exponent d =>
    let (mode, ds) := displacement base d
    fields mode (low reg) noIndex :: fields exponent (low index) (low base) :: ds
  | indexed none index exponent d =>
    fields 0 (low reg) noIndex :: fields exponent (low index) noBase :: littleEndian 4 d
  | label _ => [fields 0 (low reg) noBase]

/-- Does the address use the stack pointer as an index, which its number does not allow? -/
def isImpossible : Address → Bool
  | indexed _ index _ _ => index == noIndex
  | _ => false

end Address

/-! ## Instructions -/

/-- The fixed parts of an instruction with an address. -/
structure Form where
  /-- The prefix that belongs to the opcode. -/
  mandatory : List UInt8
  /-- Does it work on 64-bit words? -/
  wide : Bool
  opcode : List UInt8

/-- The extension byte, which is left out if it says nothing. -/
def extensionByte (wide : Bool) (bits : Nat) : List UInt8 :=
  let w := if wide then 8 else 0
  if w + bits = 0 then [] else [.ofNat (0x40 + w + bits)]

/-- An instruction on a register and an address, with the bytes of its immediate. -/
def Form.chunk (f : Form) (reg : Nat) (a : Address) (immediate : List UInt8) : Chunk :=
  let code := f.mandatory ++ extensionByte f.wide (4 * high reg + a.extension) ++ f.opcode ++
    a.bytes reg
  if a.isImpossible then .impossible
  else
    match a with
    | .label target => .relative code target immediate
    | _ => .fixed (code ++ immediate)

/-- An instruction on 64-bit words. -/
def Form.words (opcode : List UInt8) : Form := ⟨[], true, opcode⟩

/-- An instruction on one decimal. -/
def Form.decimals (opcode : UInt8) : Form := ⟨[0xf2], false, [0x0f, opcode]⟩

/-- An instruction with its register inside the opcode. -/
def shortForm (wide : Bool) (opcode id : Nat) (immediate : List UInt8) : Chunk :=
  .fixed (extensionByte wide (high id) ++ .ofNat (opcode + low id) :: immediate)

/-! ## Code -/

/-- Chunks with the places of the labels among them. -/
structure Code where
  chunks : Array Chunk
  /-- The chunk that each placed label stands before. -/
  placed : List (LabelNumber × Nat)

/-- How far a chunk is taken to reach. -/
inductive Reach
  | short | near
  /-- As far as can be; this is only an estimate to begin with. -/
  | far
deriving DecidableEq, Inhabited

/-- The number of bytes of a chunk. -/
def Chunk.size : Chunk → Reach → Nat
  | fixed bytes, _ => bytes.length
  | relative before _ after, .far => before.length + 5 + after.length
  | relative before _ after, _ => before.length + 4 + after.length
  | jump _ _, .short => 2
  | jump none _, .near => 5
  | jump (some _) _, .near => 6
  | jump none _, .far => 6
  | jump (some _) _, .far => 8
  | call _, .far => 6
  | call _, _ => 5
  | impossible, _ => 0

/-- A layout: the reach and the address of each chunk. -/
structure Layout where
  reaches : Array Reach
  addresses : Array Nat

namespace Code

/-! ## Sweeps -/

/-- The address of a label and whether it is placed. A label that is not placed stands for the
address that is its number. -/
def locate (c : Code) (l : Layout) (target : LabelNumber) : Nat × Bool :=
  match c.placed.lookup target with
  | some i => (l.addresses.getD i 0, true)
  | none => (target, false)

/-- Does a short jump at an address reach its target, when so many bytes were gained before it? -/
def isShort (c : Code) (l : Layout) (address gained : Nat) (target : LabelNumber) : Bool :=
  let (goal, inside) := c.locate l target
  let distance : Int := goal - (address + 2)
  fitsBytes 1 (if inside ∧ 0 ≤ distance then distance - gained else distance)

/-- The reach of a chunk at an address, when so many bytes were gained before it. -/
def reachOf (c : Code) (l : Layout) (address gained : Nat) : Chunk → Reach → Reach
  | .jump _ target, r =>
    if r = .short ∨ c.isShort l address gained target then .short else .near
  | .call _, _ | .relative .., _ => .near
  | _, r => r

/-- A sweep on its way. -/
structure Sweep where
  layout : Layout
  /-- The address of the next chunk. -/
  address : Nat
  /-- The bytes gained so far. -/
  gained : Nat

/-- Sweeps over one chunk. -/
def sweepChunk (c : Code) (s : Sweep) (chunk : Chunk) (i : Nat) : Sweep :=
  let l := { s.layout with addresses := s.layout.addresses.setIfInBounds i s.address }
  let old := l.reaches.getD i .far
  let new := c.reachOf l s.address s.gained chunk old
  ⟨{ l with reaches := l.reaches.setIfInBounds i new }, s.address + chunk.size new,
    s.gained + (chunk.size old - chunk.size new)⟩

/-- Sweeps over all chunks in order. -/
def sweep (c : Code) (l : Layout) : Sweep :=
  c.chunks.toList.zipIdx.foldl (fun s (chunk, i) => c.sweepChunk s chunk i) ⟨l, 0, 0⟩

/-- Sweeps until nothing is gained, at most that often. -/
def settleWithin (c : Code) : Nat → Layout → Layout
  | 0, l => l
  | fuel + 1, l =>
    let s := c.sweep l
    if s.gained = 0 then s.layout else c.settleWithin fuel s.layout

/-- The addresses of chunks one behind the other. -/
def addressesFrom (address : Nat) : List Chunk → List Nat
  | [] => []
  | c :: rest => address :: addressesFrom (address + c.size .far) rest

/-- The layout to begin with. -/
def start (c : Code) : Layout :=
  ⟨c.chunks.map fun _ => .far, (addressesFrom 0 c.chunks.toList).toArray⟩

/-- The final layout. -/
def settle (c : Code) : Layout := c.settleWithin 5 c.start

/-! ## Bytes -/

/-- The distance to a label from the end of a chunk. -/
def distance (c : Code) (l : Layout) (stop : Nat) (target : LabelNumber) : Int :=
  (c.locate l target).1 - stop

/-- The bytes of a chunk that ends at an address. -/
def chunkBytes (c : Code) (l : Layout) (stop : Nat) : Chunk → Reach → List UInt8
  | .fixed bytes, _ => bytes
  | .relative before target after, _ => before ++ littleEndian 4 (c.distance l stop target) ++ after
  | .jump none target, .short => 0xeb :: littleEndian 1 (c.distance l stop target)
  | .jump (some k) target, .short =>
    .ofNat (0x70 + k) :: littleEndian 1 (c.distance l stop target)
  | .jump none target, _ => 0xe9 :: littleEndian 4 (c.distance l stop target)
  | .jump (some k) target, _ =>
    0x0f :: .ofNat (0x80 + k) :: littleEndian 4 (c.distance l stop target)
  | .call target, _ => 0xe8 :: littleEndian 4 (c.distance l stop target)
  | .impossible, _ => []

/-- The machine code. -/
def bytes (c : Code) : List UInt8 :=
  let l := c.settle
  c.chunks.toList.zipIdx.flatMap fun (chunk, i) =>
    let reach := l.reaches.getD i .far
    c.chunkBytes l (l.addresses.getD i 0 + chunk.size reach) chunk reach

end Code

end Codegen.MachineCode
