import Codegen.Routine.Append

/-!
# Lowering of expressions

Expressions become instructions, operands from left to right. Arithmetic of constants is done at
once. A constant operand of a commutative operation goes second, and operations that change
nothing are left out. A variable is assigned by binding it to another value, which is copied first
if it may change or belong to another variable.

The functions take the lowering of a node's parts, which is `Generating.lowerWithin` in the end.

* `Number.fold?`: arithmetic of constants;
* `Generating.lowerArithmetic`, `lowerAssignment`, `lowerLink`, `lowerOffset`, `lowerCall`,
  `lowerReturn`: the constructs.
-/

namespace Codegen

/-! ## Constants -/

/-- An arithmetic operation on words, which wraps around. -/
def Operator.onWords? : Operator → Option (Word → Word → Word)
  | add => some (· + ·)
  | subtract => some (· - ·)
  | multiply => some (· * ·)
  | _ => none

/-- An arithmetic operation on decimals. -/
def Operator.onDecimals? : Operator → Option (Decimal → Decimal → Decimal)
  | add => some (· + ·)
  | subtract => some (· - ·)
  | multiply => some (· * ·)
  | _ => none

/-- The outcome of an operation on constants, a decimal if one of them is. -/
def Number.fold? (o : Operator) : Number → Number → Option Number
  | integer a, integer b => o.onWords?.map fun f => integer (f a b)
  | a, b => o.onDecimals?.map fun f => decimal (f a.toDecimal b.toDecimal)

/-- A number for a format: integers become decimals where decimals are expected. -/
def Number.adapt (f : Format) : Number → Number
  | integer w => if f.isDecimal then decimal (integer w).toDecimal else integer w
  | decimal x => decimal x

namespace Generating

/-- The lowering of a node, with its value if it has one. -/
abbrev Lowering := NodeId → Generating (Option ValueId)

/-- The value of a node that has to have one. -/
def valueOfNode (lower : Lowering) (n : NodeId) : Generating ValueId := do
  match ← lower n with
  | some x => return x
  | none => refuse (.noValue ((← get).tree.kind n))

/-- The first and the last child of a node, which have to be different. -/
def operandsOf (n : NodeId) : Generating (NodeId × NodeId) := do
  let t := (← get).tree
  match t.first? n, t.last? n with
  | some l, some r => if l ≠ r then return (l, r) else refuse .missingOperand
  | _, _ => refuse .missingOperand

/-- The constant that a value is. -/
def constantOf? (x : ValueId) : Generating (Option Number) := return (← handleOf x).constant?

/-! ## Arithmetic -/

/-- The instruction of an arithmetic operator. -/
def arithmetic? (first second : ValueId) : Operator → Option InstructionKind
  | .add => some (.addition first second)
  | .subtract => some (.subtraction first second)
  | .multiply => some (.multiplication first second)
  | _ => none

/-- Does the operation on integers leave its first operand as it is? -/
def isNeutral (o : Operator) (second : Option Number) : Bool :=
  match o, second with
  | .add, some (.integer w) | .subtract, some (.integer w) => w == 0
  | .multiply, some (.integer w) => w == 1
  | _, _ => false

/-- Does the operation on integers make zero of its first operand? -/
def isAnnihilating (o : Operator) (second : Option Number) : Bool :=
  match o, second with
  | .multiply, some (.integer w) => w == 0
  | _, _ => false

/-- An arithmetic operation on two values, the second a constant if one of them is. -/
def appendArithmetic (o : Operator) (format : Format) (first second : ValueId) :
    Generating ValueId := do
  let constant? ← constantOf? second
  if !format.isDecimal && isNeutral o constant? then return first
  if !format.isDecimal && isAnnihilating o constant? then
    return ← create (.constant (.integer 0)) format
  match arithmetic? first second o with
  | some kind => append kind format
  | none => refuse (.notArithmetic o)

/-- An arithmetic operation. -/
def lowerArithmetic (lower : Lowering) (n : NodeId) (o : Operator) : Generating ValueId := do
  let (left, right) ← operandsOf n
  let format ← ask fun r => r.tree.formatOf r.symbols n
  let first ← valueOfNode lower left
  let second ← valueOfNode lower right
  match ← constantOf? first, ← constantOf? second with
  | some a, some b =>
    match a.fold? o b with
    | some c => create (.constant (c.adapt format)) format
    | none => appendArithmetic o format first second
  | some _, none =>
    if o = .add ∨ o = .multiply then appendArithmetic o format second first
    else appendArithmetic o format first second
  | none, _ => appendArithmetic o format first second

/-! ## Variables and memory -/

/-- Can a variable of a format be bound to a value as it is? -/
def isBindable (x : ValueId) (format : Format) : Generating Bool := do
  let cell ← cellOf x
  if cell.format.isDecimal != format.isDecimal then return false
  match cell.handle with
  | .constant _ | .inline .. => return true
  | .none => return cell.metadata.vars.isEmpty
  | _ => return false

/-- An assignment to a variable or to memory; its value is the assigned one. -/
def lowerAssignment (lower : Lowering) (n : NodeId) : Generating ValueId := do
  let (destination, source) ← operandsOf n
  match (← get).tree.kind destination with
  | .reference v =>
    let x ← valueOfNode lower source
    let format ← formatOfVariable v
    let y ← if ← isBindable x format then pure x else append (.duplicate x) format
    bind v y
    return y
  | .link | .offset =>
    let d ← valueOfNode lower destination
    let x ← valueOfNode lower source
    let _ ← append (.move d x) (← formatOf d)
    return x
  | kind => refuse (.notAssignable kind)

/-- The variable that names the member of an access, and its offset. -/
def memberOf (n : NodeId) : Generating (VariableId × Word) := do
  match (← get).tree.kind n with
  | .reference v =>
    let info ← variableOf v
    match info.category with
    | .member offset => return (v, .ofNat offset)
    | _ => refuse (.notMember info.name)
  | _ => refuse .linkWithoutMember

/-- Access to a member. -/
def lowerLink (lower : Lowering) (n : NodeId) : Generating ValueId := do
  let (object, name) ← operandsOf n
  let (v, offset) ← memberOf name
  let start ← valueOfNode lower object
  append (.getObjectPointer start offset) (← formatOfVariable v)

/-- The distance of the elements of indexed memory; each is one word. -/
def elementStride : Word := 8

/-- Access by index. -/
def lowerOffset (lower : Lowering) (n : NodeId) : Generating ValueId := do
  let (object, index) ← operandsOf n
  let start ← valueOfNode lower object
  let offset ← valueOfNode lower index
  append (.getMemoryAddress start offset elementStride) .i64

/-! ## Calls and returns -/

/-- A call. -/
def lowerCall (lower : Lowering) (n : NodeId) (f : FunctionId) : Generating ValueId := do
  let arguments ← ((← get).tree.children n).mapM (valueOfNode lower)
  let info ← ask (·.symbols.functionInfo f)
  checkArguments info.name (← arguments.mapM formatOf)
  let format ← formatOfType info.returnType?
  let _ ← append .evacuate .i64
  append (.call (← ask (·.symbols.symbol f)) arguments) format

/-- Does the function return a decimal? -/
def returnsDecimal : Generating Bool := do
  let info ← ask fun r => r.symbols.functionInfo r.function
  return (← formatOfType info.returnType?).isDecimal

/-- A return; an integer becomes a decimal where one is expected. -/
def lowerReturn (lower : Lowering) (n : NodeId) : Generating Unit := do
  let value ←
    match (← get).tree.first? n with
    | some child =>
      let x ← valueOfNode lower child
      if (← returnsDecimal) && !(← formatOf x).isDecimal then
        some <$> append (.duplicate x) .decimal
      else pure (some x)
    | none => pure none
  let _ ← append (.ret value) .i64

end Generating

end Codegen
