import Codegen.Routine.Basic

/-!
# Text of the instruction stream

* `Role.letters`: the roles of a parameter;
* `Instruction.text`: an instruction with its position, its result and its parameters;
* `SlotKey.caption`: the name of a stack slot.
-/

namespace Codegen

/-- The roles of a parameter, a letter for each: destination, reads, writes, and not attached. -/
def Role.letters (r : Role) : String :=
  .ofList ([(r.destination, 'D'), (r.reads, 'R'), (r.writes, 'W'), (r.apart, 'N')].filterMap
    fun (has, letter) => if has then some letter else none)

/-- The text of a parameter. -/
def Parameter.text (p : Parameter) : String := p.value.text ++ ":" ++ p.role.letters

/-- The text of an instruction at a position; a mark shows that it makes no operations. -/
def Instruction.text (position : Nat) (i : Instruction) : String :=
  let mark := if i.kind.isAbstract then "~" else ""
  s!"{position} " ++ mark ++ i.kind.name ++ " -> " ++ i.result.text ++ " (" ++
    ", ".intercalate (i.parameters.map Parameter.text) ++ ")"

/-- The texts of all instructions. -/
def Routine.stream (r : Routine) : List String :=
  r.instructions.toList.zipIdx.map fun (i, position) => i.text position

/-- The name of a stack slot. -/
def SlotKey.caption (s : SymbolTable) : SlotKey → String
  | ofVariable v => "variable " ++ s.vars[v]?.elim "" (·.name)
  | temporary k => s!"temporary {k}"
  | inline identity => "inline " ++ identity

end Codegen
