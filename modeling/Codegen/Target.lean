import Codegen.Format
import Codegen.Register.File

/-!
# Targets

The roles that the registers of an architecture have: which of them carry arguments and results,
which hold values, and which a call may overwrite.

* `Target`: the roles of the registers;
* `Architecture.target`: the roles on each architecture;
* `Target.argumentRegisters`, `Target.resultRegister`: the calling convention;
* `Architecture.registerName`: the names of registers in assembly text.
-/

namespace Codegen

/-- The roles of the registers of an architecture. -/
structure Target where
  /-- The registers of integer arguments in order. -/
  parameters : List Register
  /-- The registers of decimal arguments in order. -/
  mediaParameters : List Register
  returnRegister : Register
  mediaReturn : Register
  stackPointer : Register
  framePointer : Register
  /-- The general register that no value lives in, if one is kept free. -/
  scratch? : Option Register
  /-- The media register that no value lives in. -/
  mediaScratch : Register
  allocatable : RegisterSet
  volatile : RegisterSet
deriving Inhabited

/-- The bank of the registers that hold values of a format. -/
def Format.bank (f : Format) : Nat :=
  if f.isDecimal then Register.mediaBank else Register.generalBank

namespace Target

/-! ## The two targets -/

/-- The numbers from one to another, both included. -/
def span (first last : Nat) : List Nat := (List.range (last + 1)).drop first

/-- The System V convention: `rbx`, `rbp` and `r12` to `r15` survive calls. -/
def x64 : Target where
  parameters := [7, 6, 2, 1, 8, 9].map .general
  mediaParameters := (span 0 7).map .media
  returnRegister := .general 0
  mediaReturn := .media 0
  stackPointer := .general 4
  framePointer := .general 5
  scratch? := none
  mediaScratch := .media 15
  allocatable := .ofList
    ((span 0 3 ++ span 6 15).map .general ++ (span 0 14).map .media)
  volatile := .ofList
    ((span 0 2 ++ span 6 11).map .general ++ (span 0 15).map .media)

/-- The procedure call standard of the architecture: `x19` to `x28` and `d8` to `d15` survive
calls, `x16` and `d31` are kept free, `x18` belongs to the platform. -/
def arm64 : Target where
  parameters := (span 0 7).map .general
  mediaParameters := (span 0 7).map .media
  returnRegister := .general 0
  mediaReturn := .media 0
  stackPointer := .general 31
  framePointer := .general 29
  scratch? := some (.general 16)
  mediaScratch := .media 31
  allocatable := .ofList
    ((span 0 15 ++ [17] ++ span 19 28).map .general ++ (span 0 30).map .media)
  volatile := .ofList
    ((span 0 15 ++ [17]).map .general ++ (span 0 7 ++ span 16 30).map .media)

/-- The register of the return address, on the architecture that has one. -/
def linkRegister : Register := .general 30

/-! ## Roles -/

/-- The empty register file of a function. -/
def registerFile (t : Target) : RegisterFile := .ofShape 32 2 t.allocatable t.volatile

/-- The register that a value of a format is returned in. -/
def resultRegister (t : Target) (f : Format) : Register :=
  if f.isDecimal then t.mediaReturn else t.returnRegister

/-- The register that transfers of a format may overwrite. -/
def scratchFor? (t : Target) (f : Format) : Option Register :=
  if f.isDecimal then some t.mediaScratch else t.scratch?

/-- Hands out argument registers from those that are left of each kind. -/
def distribute (t : Target) : List Register → List Register → List Format →
    Except Nat (List Register)
  | _, _, [] => .ok []
  | general, media, f :: rest =>
    if f.isDecimal then
      match media with
      | r :: media => return r :: (← t.distribute general media rest)
      | [] => .error t.mediaParameters.length
    else
      match general with
      | r :: general => return r :: (← t.distribute general media rest)
      | [] => .error t.parameters.length

/-- The registers of arguments of these formats, or how many of the kind that ran out there are.
Integers and decimals are counted apart. -/
def argumentRegisters (t : Target) (formats : List Format) : Except Nat (List Register) :=
  t.distribute t.parameters t.mediaParameters formats

end Target

namespace Architecture

/-- The roles of the registers. -/
def target : Architecture → Target
  | x64 => .x64
  | arm64 => .arm64

/-- The names of the general registers of x64 in the order of their numbers. -/
def generalNames : List String :=
  ["rax", "rcx", "rdx", "rbx", "rsp", "rbp", "rsi", "rdi", "r8", "r9", "r10", "r11", "r12", "r13",
    "r14", "r15"]

/-- The name of a register in assembly text. -/
def registerName (a : Architecture) (r : Register) : String :=
  match a, r.isMedia with
  | x64, true => s!"xmm{r.id}"
  | x64, false => generalNames.getD r.id s!"r?{r.id}"
  | arm64, true => s!"d{r.id}"
  | arm64, false => if r.id = 31 then "sp" else s!"x{r.id}"

end Architecture

end Codegen
