import Codegen.Decimal
import Codegen.Word

/-!
# Numbers

The literal values of a program: signed words and decimals.

* `Number.toWord`, `Number.toDecimal`: the conversions between the two;
* `Number.text`, `Number.describe`: the texts for people and for diagnosis.
-/

namespace Codegen

/-- A literal value. -/
inductive Number
  | integer (value : Word)
  | decimal (value : Decimal)
deriving DecidableEq, Inhabited

namespace Number

/-- Is the value a zero of either sign? -/
def isZero : Number → Bool
  | integer n => n == 0
  | decimal x => x.isZero

/-- Is the value a decimal? -/
def isDecimal : Number → Bool
  | integer _ => false
  | decimal _ => true

/-- The value as a word; a decimal loses its fraction and stays within the words. -/
def toWord : Number → Word
  | integer n => n
  | decimal x => .ofInt x.toInt

/-- The value as the nearest decimal. -/
def toDecimal : Number → Decimal
  | integer n => .ofInt n.toInt
  | decimal x => x

/-- The 64 bits that hold the value in memory. -/
def bits : Number → UInt64
  | integer n => n.toUInt64
  | decimal x => x.bits

/-- The text of a number for people. -/
def text : Number → String
  | integer n => toString n.toInt
  | decimal x => x.render .plain

/-- The text of a number inside messages about tree nodes. -/
def describe : Number → String
  | integer n => s!"Integer({n.toInt})"
  | decimal x => s!"Decimal({x.render .precise})"

end Number

end Codegen
