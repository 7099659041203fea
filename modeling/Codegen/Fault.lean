import Codegen.Operation
import Codegen.Tree.Node
import Codegen.Value.Handle

/-!
# Faults

Why the compilation of a function stops: a construct that cannot be compiled, which is reported
with a text, or a broken promise of the caller, which is not.

* `Inconsistency`: the malformed trees and streams that are reported;
* `EncodingError`: why an operation has no machine code;
* `CompileError`: the reported errors and their texts;
* `Fault`: a reported error, or a crash.
-/

namespace Codegen

/-! ## Malformed input -/

/-- A tree or an instruction stream that no well-formed program leads to. -/
inductive Inconsistency
  | ambiguousCall (name : String) (overloads : Nat)
  | notResolvable (kind : NodeKind)
  | undescribed
  | bareMember (name : String)
  | alreadyBuilt
  | notComparison (operator : Operator)
  | emptyParenthesis
  | missingOperand
  | noValue (kind : NodeKind)
  | strayBranch
  | notLowerable (kind : NodeKind)
  | notArithmetic (operator : Operator)
  | notAssignable (kind : NodeKind)
  | linkWithoutMember
  | notMember (name : String)
  | brokenChain (next kind : NodeKind)
  | branchWithoutCondition
  | branchWithoutBody
  | loopWithoutBody
  | loopWithoutCondition
  | controlOutsideLoop (control : LoopControl)
  | controlInUnknownLoop (control : LoopControl)
  | noSavedState (save : Nat)
  | noEntry (entry : Nat)
  | lateArguments (function : String) (limit : Nat)
  | lateParameters (limit : Nat)
  | notStorable (handle : Handle)
  | notAddress (operand : Operand)
  | slotWithoutOffset (key : SlotKey)
  | notMemory (handle : Handle)
  | notLoadable (handle : Handle) (format : Format)
  | noScratch
  | memoryCycle
  /-- A message that a task made up itself. -/
  | other (reason : String)
deriving DecidableEq

/-- The text of an inconsistency. -/
def Inconsistency.message : Inconsistency → String
  | ambiguousCall name n => s!"call to '{name}' is ambiguous between {n} overloads"
  | notResolvable kind => s!"node {kind.describe} is not resolvable"
  | undescribed => "resolvable node without a diagnostic"
  | bareMember name => s!"member '{name}' accessed without an object"
  | alreadyBuilt => "unit was already built"
  | notComparison o => s!"'{o.symbol}' is not a comparison"
  | emptyParenthesis => "empty parenthesis as a condition"
  | missingOperand => "operator without two operands"
  | noValue kind => s!"{kind.describe} does not produce a value"
  | strayBranch => "branch without a preceding if"
  | notLowerable kind => s!"{kind.describe} reached lowering"
  | notArithmetic o => s!"'{o.symbol}' is not arithmetic"
  | notAssignable kind => s!"cannot assign to {kind.describe}"
  | linkWithoutMember => "link without a member"
  | notMember name => s!"'{name}' is not a member"
  | brokenChain next kind =>
    s!"{next.describe} cannot follow {kind.describe} in a conditional chain"
  | branchWithoutCondition => "conditional without a condition"
  | branchWithoutBody => "branch without a body"
  | loopWithoutBody => "loop without a body"
  | loopWithoutCondition => "pre-tested loop without a condition"
  | controlOutsideLoop c => s!"{c.name} outside of a loop"
  | controlInUnknownLoop c => s!"{c.name} in an unregistered loop"
  | noSavedState save => s!"no saved state at {save}"
  | noEntry entry => s!"no recorded entry at {entry}"
  | lateArguments function limit => s!"call to {function} passes more than {limit} arguments"
  | lateParameters limit => s!"more than {limit} parameters reached the build pass"
  | notStorable h => s!"cannot store into '{h.text}'"
  | notAddress o => s!"unexpected address operand {o.describe}"
  | slotWithoutOffset k => s!"slot {k.describe} has no frame offset"
  | notMemory h => s!"handle '{h.text}' does not describe memory"
  | notLoadable h f => s!"cannot load a value from '{h.text}' ({f.name})"
  | noScratch => "no scratch register for a memory transfer"
  | memoryCycle => "cannot break a cycle between memory locations"
  | other reason => reason

/-! ## Machine code -/

/-- Why a stream of operations cannot be assembled. -/
inductive AssemblyError
  | labelReused
  | labelsCollide
  | labelWithoutCode
  | invalidIndex
  | immediateTooWide
deriving DecidableEq

/-- The text of an assembly error. -/
def AssemblyError.message : AssemblyError → String
  | labelReused => "Labels can't be re-used and can only be set once."
  | labelsCollide => "Only one label per instruction is allowed"
  | labelWithoutCode => "Unused label. Did you forget to add an instruction?"
  | invalidIndex => "Invalid index register"
  | immediateTooWide => "Invalid immediate"

/-- Why an operation has no machine code. -/
inductive EncodingError
  | invalidRegister
  | unencodable (operation : Operation)
  | wideImmediate (value : Word)
  | assembly (error : AssemblyError)
  | invalidMemoryOperand
deriving DecidableEq

/-- The text of an encoding error. -/
def EncodingError.message : EncodingError → String
  | invalidRegister => "Invalid register for operation"
  | unencodable o => s!"Unsupported instruction or operand combination: {o.describe}"
  | wideImmediate w =>
    s!"Unsupported instruction or operand combination: immediate {w.toInt} needs 64 bits"
  | assembly e => s!"Assembly error: {e.message}"
  | invalidMemoryOperand => "Invalid memory operand"

/-- The name of a kind of encoding errors. -/
def EncodingError.title : EncodingError → String
  | invalidRegister => "InvalidRegister"
  | unencodable _ | wideImmediate _ => "UnsupportedInstruction"
  | assembly _ => "AssemblyError"
  | invalidMemoryOperand => "InvalidMemoryOperand"

/-! ## Reported errors -/

/-- What an architecture cannot express. -/
inductive Unsupported
  | globalVariable (name : String)
  | operatorValue (operator : Operator)
  | binaryOutput
  | decimalToInteger
deriving DecidableEq

/-- The name of an unsupported construct. -/
def Unsupported.name : Unsupported → String
  | globalVariable name => s!"global variable '{name}'"
  | operatorValue o => s!"'{o.symbol}' as a value"
  | binaryOutput => "binary output"
  | decimalToInteger => "implicit decimal to integer conversion"

/-- An error that is reported to the user. -/
inductive CompileError
  | inconsistent (cause : Inconsistency)
  | declared (kind : SymbolKind) (name : String)
  | unresolved (count : Nat)
  | register (cause : RegisterError)
  | unsupported (construct : Unsupported) (architecture : Architecture)
  | tooManyArguments (function : String) (count limit : Nat)
  | encoding (cause : EncodingError)
deriving DecidableEq

/-- The text of a reported error. -/
def CompileError.message : CompileError → String
  | inconsistent cause => s!"Internal consistency failure: {cause.message}"
  | declared kind name => s!"{kind.name} '{name}' is already declared in this context"
  | unresolved count => s!"{count} unresolved construct(s) remain"
  | register cause => s!"Register allocation failed: {cause.message}"
  | unsupported construct architecture =>
    s!"Operation '{construct.name}' is not supported on {architecture.name}"
  | tooManyArguments function count limit =>
    s!"Call to '{function}' passes {count} arguments, at most {limit} are supported"
  | encoding cause => s!"Encoding failed: {cause.message}"

/-- The name of a kind of reported errors. -/
def CompileError.title : CompileError → String
  | inconsistent _ => "InternalConsistency"
  | declared .. => "Declaration"
  | unresolved _ => "Unresolved"
  | register _ => "RegisterAllocation"
  | unsupported .. => "Unsupported"
  | tooManyArguments .. => "TooManyArguments"
  | encoding cause => "Encoding." ++ cause.title

/-! ## Faults -/

/-- A promise of the caller that turned out to be broken. -/
inductive Crash
  /-- A number names nothing. -/
  | missing
  | sumTooLarge
  | differenceTooSmall
  | productTooLarge
deriving DecidableEq

/-- The text of a crash. -/
def Crash.message : Crash → String
  | missing => "index out of bounds"
  | sumTooLarge => "attempt to add with overflow"
  | differenceTooSmall => "attempt to subtract with overflow"
  | productTooLarge => "attempt to multiply with overflow"

/-- Why a computation stops. -/
inductive Fault
  | crash (cause : Crash)
  | report (error : CompileError)
deriving DecidableEq

namespace Fault

/-- A report of malformed input. -/
def inconsistent (cause : Inconsistency) : Fault := .report (.inconsistent cause)

/-- A failed request to the register file; a lock count that overflows is a crash. -/
def ofRegisterError : RegisterError → Fault
  | .lockOverflow => .crash .sumTooLarge
  | e => .report (.register e)

/-- The text of a fault. -/
def message : Fault → String
  | crash c => c.message
  | report e => e.message

/-- The value that a caller promised, or a crash. -/
def expect {α : Type} (c : Crash) : Option α → Except Fault α
  | some a => .ok a
  | none => .error (.crash c)

end Fault

end Codegen
