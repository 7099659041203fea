import Codegen.Register.Set

/-!
# Names of registers

Registers are named by the letter of their bank and their number: `g3` is a general register and
`m3` a media register. Registers of other banks are named by both numbers, as in `2:3`.

* `Register.name`, `Register.ofName?`: the name of a register, and the register of a name.
-/

namespace Codegen.Register

/-- The name of a register. -/
def name (r : Register) : String :=
  if r.bank = generalBank then s!"g{r.id}"
  else if r.bank = mediaBank then s!"m{r.id}"
  else s!"{r.bank}:{r.id}"

/-- A number of at most eight bits, written in digits alone. -/
def byte? (s : String) : Option Nat :=
  if s.toList.all Char.isDigit then s.toNat?.filter (· < 256) else none

/-- The register of a name; banks may always be written as numbers. -/
def ofName? (s : String) : Option Register :=
  match s.toList with
  | 'g' :: rest => (byte? (.ofList rest)).map general
  | 'm' :: rest => (byte? (.ofList rest)).map media
  | _ =>
    match s.splitOn ":" with
    | [b, i] => do return ⟨← byte? b, ← byte? i⟩
    | _ => none

end Codegen.Register
