/-!
# Decimals

A decimal is a binary floating-point number of 64 bits, held as its bit pattern so that equality
of patterns is decidable and signed zeros stay apart. Its text has the fewest digits that read back
to the same number. Of two such texts the nearer one is taken, and the greater one of two that are
equally near.

* `add`, `sub`, `mul`, `lt`, `le`, `eq`: arithmetic and comparison of the numbers;
* `significand`, `scale`: a finite decimal is `± significand * 2 ^ scale`;
* `ofInt`, `toInt`: the nearest decimal of an integer, and a decimal cut to 64 signed bits;
* `shortest`: the digits `c` and the power `k` of the grid point `c * 10 ^ k`;
* `Layout`, `Decimal.render`: where the point and the exponent go.
-/

namespace Codegen

/-- A 64-bit binary floating-point number, by its bit pattern. -/
structure Decimal where
  bits : UInt64
deriving DecidableEq, Inhabited

namespace Decimal

/-! ## Arithmetic and order of the numbers -/

/-- The number of a pattern. -/
def toFloat (x : Decimal) : Float := Float.ofBits x.bits

/-- The pattern of a number. -/
def ofFloat (x : Float) : Decimal := ⟨x.toBits⟩

/-- The decimal zero. -/
def zero : Decimal := ⟨0⟩

instance : Add Decimal := ⟨fun x y => ofFloat (x.toFloat + y.toFloat)⟩
instance : Sub Decimal := ⟨fun x y => ofFloat (x.toFloat - y.toFloat)⟩
instance : Mul Decimal := ⟨fun x y => ofFloat (x.toFloat * y.toFloat)⟩

/-- Equality of the numbers: both zeros are equal and nothing equals a NaN. -/
def eq (x y : Decimal) : Bool := x.toFloat == y.toFloat

/-- Strict order of the numbers. -/
def lt (x y : Decimal) : Bool := decide (x.toFloat < y.toFloat)

/-- Order of the numbers. -/
def le (x y : Decimal) : Bool := decide (x.toFloat ≤ y.toFloat)

/-! ## The parts of a pattern -/

/-- Is the sign bit set? -/
def isNegative (x : Decimal) : Bool := x.bits.toNat.testBit 63

/-- The weight of the bit above the fraction, which every normal significand has. -/
def hiddenBit : Nat := 0x10000000000000

/-- The eleven bits of the biased exponent. -/
def biasedExponent (x : Decimal) : Nat := x.bits.toNat >>> 52 % 2048

/-- The 52 bits of the fraction. -/
def fraction (x : Decimal) : Nat := x.bits.toNat % hiddenBit

/-- Is the number neither infinite nor a NaN? -/
def isFinite (x : Decimal) : Bool := x.biasedExponent != 2047

/-- Is the pattern a NaN? -/
def isNaN (x : Decimal) : Bool := x.biasedExponent == 2047 && x.fraction != 0

/-- The integer that a power of two scales to the magnitude of a finite decimal. -/
def significand (x : Decimal) : Nat :=
  if x.biasedExponent = 0 then x.fraction else hiddenBit + x.fraction

/-- The exponent of the power of two that scales the significand. -/
def scale (x : Decimal) : Int :=
  if x.biasedExponent = 0 then -1074 else (x.biasedExponent : Int) - 1075

/-- Is the number one of the two zeros? -/
def isZero (x : Decimal) : Bool := x.isFinite && x.significand == 0

/-! ## Integers -/

/-- The least signed word of 64 bits. -/
def leastInt : Int := Int64.minValue.toInt

/-- The greatest signed word of 64 bits. -/
def greatestInt : Int := Int64.maxValue.toInt

/-- Cuts off the fraction; what does not fit 64 signed bits goes to the nearer end, a NaN to 0. -/
def toInt (x : Decimal) : Int :=
  if x.isNaN then 0
  else if !x.isFinite then if x.isNegative then leastInt else greatestInt
  else
    let magnitude :=
      if 0 ≤ x.scale then x.significand <<< x.scale.toNat
      else x.significand >>> (-x.scale).toNat
    max leastInt (min greatestInt (if x.isNegative then -(magnitude : Int) else magnitude))

/-- The pattern of the decimal nearest to a natural number below `2 ^ 65`, ties to even. -/
def ofMagnitude (n : Nat) : Nat :=
  if n = 0 then 0
  else
    let e := n.log2
    if e ≤ 52 then (e + 1023) * hiddenBit + (n <<< (52 - e) - hiddenBit)
    else
      let unit := 1 <<< (e - 52)
      let q := n / unit
      let up := unit < 2 * (n % unit) ∨ (unit = 2 * (n % unit) ∧ q % 2 = 1)
      (e + 1023) * hiddenBit + ((if up then q + 1 else q) - hiddenBit)

/-- The decimal nearest to an integer of 64 signed bits, ties to even. -/
def ofInt (i : Int) : Decimal :=
  ⟨.ofNat ((if i < 0 then 0x8000000000000000 else 0) + ofMagnitude i.natAbs)⟩

/-! ## Digits -/

/-- A point `digits * 10 ^ power` of a decimal grid. -/
structure GridPoint where
  digits : Nat
  power : Int
deriving DecidableEq

/-- A positive rational number. -/
structure Ratio where
  num : Nat
  den : Nat

/-- The power `b ^ e` as a ratio. -/
def Ratio.power (b : Nat) (e : Int) : Ratio :=
  if 0 ≤ e then ⟨b.pow e.toNat, 1⟩ else ⟨1, b.pow (-e).toNat⟩

/-- The greatest `e` with `10 ^ e ≤ r`. -/
def Ratio.log10 (r : Ratio) : Int :=
  if r.den ≤ r.num then ((Nat.toDigits 10 (r.num / r.den)).length : Int) - 1
  else
    let l := (Nat.toDigits 10 (r.den / r.num)).length - 1
    if r.den ≤ r.num * Nat.pow 10 l then -(l : Int) else -(l + 1 : Int)

/-- The reals that round to `significand * 2 ^ scale`, in quarters of its last place. -/
structure Interval where
  low : Nat
  value : Nat
  high : Nat
  /-- Do the ends round to the value too? -/
  closed : Bool
  /-- The size of a quarter. -/
  quarter : Ratio

/-- The interval of a finite positive decimal; below a power of two it is half as wide. -/
def interval (x : Decimal) : Interval :=
  let m := x.significand
  { low := if m = hiddenBit ∧ 1 < x.biasedExponent then 4 * m - 1 else 4 * m - 2
    value := 4 * m
    high := 4 * m + 2
    closed := m % 2 == 0
    quarter := .power 2 (x.scale - 2) }

/-- Does `c * 10 ^ k` round to the value? -/
def Interval.contains (i : Interval) (k : Int) (c : Nat) : Bool :=
  let g := Ratio.power 10 k
  let point := c * g.num * i.quarter.den
  let unit := g.den * i.quarter.num
  if i.closed then i.low * unit ≤ point && point ≤ i.high * unit
  else i.low * unit < point && point < i.high * unit

/-- The neighbour of the value on the grid of `10 ^ k` that rounds to it, the nearer one of two. -/
def Interval.neighbour? (i : Interval) (k : Int) : Option Nat :=
  let g := Ratio.power 10 k
  let step := g.num * i.quarter.den
  let value := i.value * (g.den * i.quarter.num)
  let c := value / step
  match i.contains k c, i.contains k (c + 1) with
  | true, true => some (if 2 * (value % step) < step then c else c + 1)
  | true, false => some c
  | false, true => some (c + 1)
  | false, false => none

/-- Drops the zeros at the end of the digits. -/
def GridPoint.strip : Nat → GridPoint → GridPoint
  | 0, p => p
  | fuel + 1, p =>
    if p.digits ≠ 0 ∧ p.digits % 10 = 0 then strip fuel ⟨p.digits / 10, p.power + 1⟩ else p

/-- The shortest digits of a finite positive decimal. -/
def shortest (x : Decimal) : GridPoint :=
  let i := x.interval
  let e := (Ratio.mk (i.value * i.quarter.num) i.quarter.den).log10
  let found := (List.range 17).findSome? fun (n : Nat) =>
    (i.neighbour? (e - n)).map fun c => GridPoint.mk c (e - n)
  ((found.getD ⟨0, 0⟩).strip 18)

/-! ## Layout -/

/-- Where the text of a decimal puts the point and when it writes an exponent. -/
structure Layout where
  /-- The exponents written positionally, from the first below the second; `none` means all. -/
  positional : Option (Int × Int)
  /-- Does a whole number end in `.0`? -/
  keepsPoint : Bool

/-- Text for people: never an exponent, and no point after a whole number. -/
def Layout.plain : Layout := ⟨none, false⟩

/-- Text for diagnosis: an exponent outside `1e-5 … 1e16`, and a point in every other number. -/
def Layout.precise : Layout := ⟨some (-5, 16), true⟩

/-- A run of zeros. -/
def zeros (n : Nat) : String := .ofList (.replicate n '0')

/-- The digits of a grid point with the point in its place. -/
def positionalText (keepsPoint : Bool) (p : GridPoint) : String :=
  let s := (Nat.toDigits 10 p.digits)
  if 0 ≤ p.power then .ofList s ++ zeros p.power.toNat ++ if keepsPoint then ".0" else ""
  else
    let places := (-p.power).toNat
    if places < s.length then
      .ofList (s.take (s.length - places)) ++ "." ++ .ofList (s.drop (s.length - places))
    else "0." ++ zeros (places - s.length) ++ .ofList s

/-- The digits of a grid point with one digit before the point, and an exponent. -/
def exponentText (p : GridPoint) (e : Int) : String :=
  let s := (Nat.toDigits 10 p.digits)
  let rest := s.drop 1
  .ofList (s.take 1) ++ (if rest.isEmpty then "" else "." ++ .ofList rest) ++ "e" ++ toString e

/-- The text of a decimal in a layout. -/
def render (l : Layout) (x : Decimal) : String :=
  if x.isNaN then "NaN"
  else (if x.isNegative then "-" else "") ++
    if !x.isFinite then "inf"
    else if x.isZero then positionalText l.keepsPoint ⟨0, 0⟩
    else
      let p := x.shortest
      let e := p.power + ((Nat.toDigits 10 p.digits).length : Int) - 1
      match l.positional with
      | some (low, high) =>
        if low < e ∧ e < high then positionalText l.keepsPoint p else exponentText p e
      | none => positionalText l.keepsPoint p

end Decimal

end Codegen
