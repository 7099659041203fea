/-!
# Signed words

Integers of the generated code are 64-bit words. Values that the program computes wrap around;
offsets and strides that the code generator computes must not, so they are added and multiplied
with a check.

* `Word.ofInt?`: the word of an integer that fits;
* `Word.add?`, `Word.mul?`: exact results, or none;
* `Word.fitsIn`: does a word fit a narrower signed field?
-/

namespace Codegen

/-- A signed word of 64 bits. -/
abbrev Word := Int64

namespace Word

/-- The word of an integer, if it has one. -/
def ofInt? (i : Int) : Option Word :=
  if Int64.minValue.toInt ≤ i ∧ i ≤ Int64.maxValue.toInt then some (Int64.ofInt i) else none

/-- The exact sum. -/
def add? (a b : Word) : Option Word := ofInt? (a.toInt + b.toInt)

/-- The exact product. -/
def mul? (a b : Word) : Option Word := ofInt? (a.toInt * b.toInt)

/-- Does the word fit a signed field of that many bits? -/
def fitsIn (w : Word) (bits : Nat) : Bool :=
  let half : Int := (1 <<< (bits - 1) : Nat)
  w.toInt < half && -half ≤ w.toInt

/-- The bits of a word as a natural number. -/
def pattern (w : Word) : Nat := w.toUInt64.toNat

theorem ofInt?_eq_some_iff {i : Int} {w : Word} : ofInt? i = some w ↔ w.toInt = i := by
  have low : Int64.minValue.toInt = -9223372036854775808 := rfl
  have high : Int64.maxValue.toInt = 9223372036854775807 := rfl
  unfold ofInt?
  constructor
  · intro h
    split at h
    · cases h
      exact Int64.toInt_ofInt_of_le (by simp; omega) (by omega)
    · cases h
  · intro h
    subst h
    have h := w.le_toInt
    have h' := w.toInt_lt
    rw [if_pos (by omega), Int64.ofInt_toInt]

end Word

end Codegen
