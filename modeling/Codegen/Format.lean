/-!
# Formats, sizes and targets

The vocabulary shared by every stage: the two target architectures, the numeric kind of a value
(`Format`), the width of an operand (`Size`) and the settings of one compilation run (`Config`).

* `Format.size`, `Format.bits`: the width of a value;
* `Size.ofBytes?`, `Size.format?`: the size of a byte count, and the integer format of a size;
* `Config`: target, debugging and threading.
-/

namespace Codegen

/-! ## Architectures -/

/-- The instruction sets that code is generated for. -/
inductive Architecture
  /-- Memory operands and scaled addressing. -/
  | x64
  /-- Loads and stores, shifted register operands. -/
  | arm64
deriving DecidableEq, Inhabited

namespace Architecture

/-- The name of an architecture in messages. -/
def name : Architecture → String
  | x64 => "x64"
  | arm64 => "arm64"

/-- All architectures. -/
def all : List Architecture := [x64, arm64]

/-- Is this the architecture with memory operands? -/
def isX64 : Architecture → Bool
  | x64 => true
  | arm64 => false

/-- Is this the load and store architecture? -/
def isArm64 : Architecture → Bool
  | x64 => false
  | arm64 => true

/-- The largest constant that a scaled operand multiplies by. -/
def largestScale : Architecture → Int
  | x64 => 8
  | arm64 => 0x100000000

end Architecture

/-! ## Sizes -/

/-- The width of an operand. -/
inductive Size
  | byte | word | dword | qword | xmmword | ymmword
deriving DecidableEq, Inhabited

namespace Size

/-- The width in bytes. -/
def bytes : Size → Nat
  | byte => 1
  | word => 2
  | dword => 4
  | qword => 8
  | xmmword => 16
  | ymmword => 32

/-- The width in bits. -/
def bits (s : Size) : Nat := s.bytes * 8

/-- The name of a size in memory operands. -/
def name : Size → String
  | byte => "byte"
  | word => "word"
  | dword => "dword"
  | qword => "qword"
  | xmmword => "xmmword"
  | ymmword => "ymmword"

/-- All sizes. -/
def all : List Size := [byte, word, dword, qword, xmmword, ymmword]

/-- The directive that allocates one value of this size. -/
def directive : Size → String
  | byte => ".byte"
  | word => ".short"
  | dword => ".long"
  | qword => ".quad"
  | xmmword => ".xword"
  | ymmword => ".yword"

/-- The size of that many bytes. -/
def ofBytes? : Nat → Option Size
  | 1 => some byte
  | 2 => some word
  | 4 => some dword
  | 8 => some qword
  | 16 => some xmmword
  | 32 => some ymmword
  | _ => none

/-- Sizes come in the order of their widths. -/
instance : LT Size := ⟨fun a b => a.bytes < b.bytes⟩

instance (a b : Size) : Decidable (a < b) := inferInstanceAs (Decidable (a.bytes < b.bytes))

theorem ofBytes?_bytes (s : Size) : ofBytes? s.bytes = some s := by cases s <;> rfl

end Size

/-! ## Formats -/

/-- The numeric kind of a value. -/
inductive Format
  | i8 | u8 | i16 | u16 | i32 | u32 | i64 | u64 | decimal
deriving DecidableEq, Inhabited

namespace Format

/-- The name of a format, which is also the name of its built-in type. -/
def name : Format → String
  | i8 => "i8"
  | u8 => "u8"
  | i16 => "i16"
  | u16 => "u16"
  | i32 => "i32"
  | u32 => "u32"
  | i64 => "i64"
  | u64 => "u64"
  | decimal => "decimal"

/-- All formats. -/
def all : List Format := [i8, u8, i16, u16, i32, u32, i64, u64, decimal]

/-- The name of a format inside the text of a tree node. -/
def tag : Format → String
  | i8 => "I8"
  | u8 => "U8"
  | i16 => "I16"
  | u16 => "U16"
  | i32 => "I32"
  | u32 => "U32"
  | i64 => "I64"
  | u64 => "U64"
  | decimal => "Decimal"

/-- Does the format hold decimals? -/
def isDecimal : Format → Bool
  | decimal => true
  | _ => false

/-- Does the format hold natural numbers only? -/
def isUnsigned : Format → Bool
  | u8 | u16 | u32 | u64 => true
  | _ => false

/-- Does the format hold integers of either sign? -/
def isSigned (f : Format) : Bool := !f.isUnsigned && !f.isDecimal

/-- The width of a value. -/
def size : Format → Size
  | i8 | u8 => .byte
  | i16 | u16 => .word
  | i32 | u32 => .dword
  | i64 | u64 | decimal => .qword

/-- The width of a value in bits. -/
def bits (f : Format) : Nat := f.size.bits

end Format

/-- The integer format of a size; wide sizes have none. -/
def Size.format? : Size → Bool → Option Format
  | .byte, true => some .u8
  | .byte, false => some .i8
  | .word, true => some .u16
  | .word, false => some .i16
  | .dword, true => some .u32
  | .dword, false => some .i32
  | .qword, true => some .u64
  | .qword, false => some .i64
  | .xmmword, _ | .ymmword, _ => none

namespace Architecture

/-- The width of a general register. -/
def size (_ : Architecture) : Size := .qword

/-- The format of addresses and untyped integers. -/
def format (_ : Architecture) : Format := .i64

end Architecture

/-! ## Settings -/

/-- The settings of one compilation run. -/
structure Config where
  architecture : Architecture
  /-- Loops keep no variables in registers and the frame pointer is maintained. -/
  debug : Bool
  /-- Independent tasks may run beside each other. -/
  multithreaded : Bool
deriving DecidableEq

namespace Config

/-- Settings for a target, without debugging and threads. -/
def ofArchitecture (a : Architecture) : Config := ⟨a, false, false⟩

instance : Inhabited Config := ⟨ofArchitecture .x64⟩

/-- The same settings with debugging on or off. -/
def withDebug (c : Config) (debug : Bool) : Config := { c with debug }

/-- The same settings with threads on or off. -/
def withThreads (c : Config) (multithreaded : Bool) : Config := { c with multithreaded }

end Config

end Codegen
