import Codegen.Listing.Arm64
import Codegen.Text

/-!
# Assembly text of a function

The lines of a function begin with its symbol and end with its constants. On x64 the constants are
in the data section, on arm64 they follow the code, so that loads reach them.

* `Operation.lines`: the lines of an operation on an architecture;
* `listing`: the text of a function.
-/

namespace Codegen

/-- The lines of an operation. -/
def Operation.lines (a : Architecture) (o : Operation) : List String :=
  match a with
  | .x64 => [o.x64Line]
  | .arm64 => o.arm64Lines

/-- The line of a constant. -/
def DataConstant.line (c : DataConstant) : String :=
  c.identifier ++ ": " ++ c.size.directive ++ " 0x" ++ Text.hexDigits c.value.bits.toNat

/-- The lines before the operations. -/
def openingLines (a : Architecture) (symbol : String) : List String :=
  match a with
  | .x64 => [".section .text", ".global " ++ symbol, symbol ++ ":"]
  | .arm64 => [".text", ".global " ++ symbol, ".balign 4", symbol ++ ":"]

/-- The line before the constants. -/
def constantsLine : Architecture → String
  | .x64 => ".section .data"
  | .arm64 => ".balign 8"

/-- The lines of an operation inside a function; all but labels are indented. -/
def Operation.indentedLines (a : Architecture) (o : Operation) : List String :=
  if o.opcode = .label then o.lines a else (o.lines a).map ("    " ++ ·)

/-- The text of a function with its constants. -/
def listing (a : Architecture) (symbol : String) (operations : List Operation)
    (constants : List DataConstant) : String :=
  let constantLines :=
    if constants.isEmpty then [] else constantsLine a :: constants.map DataConstant.line
  String.join ((openingLines a symbol ++ operations.flatMap (Operation.indentedLines a) ++
    constantLines).map (· ++ "\n"))

end Codegen
