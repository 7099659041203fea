import Codegen.Number

/-!
# Operators and comparisons

The binary operators of the source and the six outcomes that a conditional jump tests.

* `Operator.category`, `Operator.inverse?`: the class of an operator, and the opposite comparison;
* `Comparison.ofOperator?`, `Comparison.inverse`: the outcome of a comparison operator;
* `Comparison.holds`, `Comparison.holdsDecimal`: the test on words and on decimals.
-/

namespace Codegen

/-! ## Operators -/

/-- The binary operators. -/
inductive Operator
  | add | subtract | multiply | assign
  | equals | notEquals | less | lessOrEqual | greater | greaterOrEqual
  | and | or
deriving DecidableEq, Inhabited

/-- What an operator is used for. -/
inductive OperatorClass
  | classic | comparison | logic | assign
deriving DecidableEq

/-- The name of a class of operators. -/
def OperatorClass.name : OperatorClass → String
  | classic => "Classic"
  | comparison => "Comparison"
  | logic => "Logic"
  | assign => "Assign"

namespace Operator

/-- The class of an operator. -/
def category : Operator → OperatorClass
  | add | subtract | multiply => .classic
  | assign => .assign
  | equals | notEquals | less | lessOrEqual | greater | greaterOrEqual => .comparison
  | and | or => .logic

/-- Does the operator compare two values? -/
def isComparison (o : Operator) : Bool := o.category == .comparison

/-- Does the operator join two conditions? -/
def isLogical (o : Operator) : Bool := o.category == .logic

/-- The comparison with the opposite outcome. -/
def inverse? : Operator → Option Operator
  | equals => some notEquals
  | notEquals => some equals
  | less => some greaterOrEqual
  | lessOrEqual => some greater
  | greater => some lessOrEqual
  | greaterOrEqual => some less
  | add | subtract | multiply | assign | and | or => none

/-- The symbol of an operator in the source. -/
def symbol : Operator → String
  | add => "+"
  | subtract => "-"
  | multiply => "*"
  | assign => "="
  | equals => "=="
  | notEquals => "!="
  | less => "<"
  | lessOrEqual => "<="
  | greater => ">"
  | greaterOrEqual => ">="
  | and => "and"
  | or => "or"

/-- The name of an operator inside messages about tree nodes. -/
def name : Operator → String
  | add => "Add"
  | subtract => "Subtract"
  | multiply => "Multiply"
  | assign => "Assign"
  | equals => "Equals"
  | notEquals => "NotEquals"
  | less => "Less"
  | lessOrEqual => "LessOrEqual"
  | greater => "Greater"
  | greaterOrEqual => "GreaterOrEqual"
  | and => "And"
  | or => "Or"

/-- All operators. -/
def all : List Operator :=
  [add, subtract, multiply, assign, equals, notEquals, less, lessOrEqual, greater, greaterOrEqual,
    and, or]

/-- The operator with that symbol. -/
def ofSymbol? (s : String) : Option Operator := all.find? (·.symbol == s)

end Operator

/-! ## Comparisons -/

/-- An outcome that a conditional jump tests. -/
inductive Comparison
  | equal | notEqual | less | lessOrEqual | greater | greaterOrEqual
deriving DecidableEq, Inhabited

namespace Comparison

/-- The outcome that a comparison operator asks for. -/
def ofOperator? : Operator → Option Comparison
  | .equals => some equal
  | .notEquals => some notEqual
  | .less => some less
  | .lessOrEqual => some lessOrEqual
  | .greater => some greater
  | .greaterOrEqual => some greaterOrEqual
  | .add | .subtract | .multiply | .assign | .and | .or => none

/-- The operator that asks for an outcome. -/
def operator : Comparison → Operator
  | equal => .equals
  | notEqual => .notEquals
  | less => .less
  | lessOrEqual => .lessOrEqual
  | greater => .greater
  | greaterOrEqual => .greaterOrEqual

/-- The opposite outcome. -/
def inverse : Comparison → Comparison
  | equal => notEqual
  | notEqual => equal
  | less => greaterOrEqual
  | lessOrEqual => greater
  | greater => lessOrEqual
  | greaterOrEqual => less

/-- The name of an outcome inside messages about machine operations. -/
def name : Comparison → String
  | equal => "Equal"
  | notEqual => "NotEqual"
  | less => "Less"
  | lessOrEqual => "LessOrEqual"
  | greater => "Greater"
  | greaterOrEqual => "GreaterOrEqual"

/-- Does the outcome hold of two words? -/
def holds : Comparison → Word → Word → Bool
  | equal, a, b => a == b
  | notEqual, a, b => a != b
  | less, a, b => a < b
  | lessOrEqual, a, b => a ≤ b
  | greater, a, b => b < a
  | greaterOrEqual, a, b => b ≤ a

/-- Does the outcome hold of two decimals? A NaN is unequal to all and ordered with none. -/
def holdsDecimal : Comparison → Decimal → Decimal → Bool
  | equal, a, b => a.eq b
  | notEqual, a, b => !a.eq b
  | less, a, b => a.lt b
  | lessOrEqual, a, b => a.le b
  | greater, a, b => b.lt a
  | greaterOrEqual, a, b => b.le a

/-- Does the outcome hold of two numbers? Words are compared as words, all else as decimals. -/
def holdsNumber (c : Comparison) : Number → Number → Bool
  | .integer a, .integer b => c.holds a b
  | a, b => c.holdsDecimal a.toDecimal b.toDecimal

theorem inverse_inverse (c : Comparison) : c.inverse.inverse = c := by cases c <;> rfl

theorem ofOperator?_operator (c : Comparison) : ofOperator? c.operator = some c := by
  cases c <;> rfl

end Comparison

end Codegen
