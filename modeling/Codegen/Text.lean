/-!
# Text

Names inside messages about tree nodes are written between double quotes, with the characters
that do not print written as escapes.

* `hexDigits`, `hexPadded`, `hexBytes`: the lower case digits of a number and of bytes;
* `parseHex?`: the number of some digits;
* `quote`, `escape`: a text between quotes, and how one character is written.
-/

namespace Codegen.Text

/-! ## Hexadecimal text -/

/-- The digits of a number. -/
def hexDigits (n : Nat) : String := .ofList (Nat.toDigits 16 n)

/-- The digits of a number behind zeros, at least that many. -/
def hexPadded (width n : Nat) : String :=
  let ds := Nat.toDigits 16 n
  .ofList (.replicate (width - ds.length) '0' ++ ds)

/-- The digits of bytes, two for each. -/
def hexBytes (bs : List UInt8) : String := String.join (bs.map fun b => hexPadded 2 b.toNat)

/-- The value of a lower case digit. -/
def hexValue? (c : Char) : Option Nat :=
  if '0' ≤ c ∧ c ≤ '9' then some (c.toNat - '0'.toNat)
  else if 'a' ≤ c ∧ c ≤ 'f' then some (c.toNat - 'a'.toNat + 10)
  else none

/-- The number of some lower case digits. -/
def parseHex? (s : String) : Option Nat :=
  s.toList.foldlM (fun n c => (hexValue? c).map (16 * n + ·)) 0

/-! ## Quoted text -/

/--
Ranges of characters that have no printed form of their own: controls, separators other than the
space, invisible format characters, marks that attach to the character before, private use.
-/
def unprintable : List (Nat × Nat) :=
  [(0x00, 0x1f), (0x7f, 0xa0), (0xad, 0xad), (0x300, 0x36f), (0x483, 0x489), (0x600, 0x605),
   (0x61c, 0x61c), (0x6dd, 0x6dd), (0x70f, 0x70f), (0x890, 0x891), (0x8e2, 0x8e2),
   (0x1680, 0x1680), (0x180e, 0x180e), (0x2000, 0x200f), (0x2028, 0x202f), (0x205f, 0x206f),
   (0x20d0, 0x20f0), (0x3000, 0x3000), (0xe000, 0xf8ff), (0xfe00, 0xfe0f), (0xfeff, 0xfeff),
   (0xfff0, 0xfffb), (0xfffe, 0xffff), (0x110bd, 0x110bd), (0x110cd, 0x110cd),
   (0x13430, 0x13438), (0x1bca0, 0x1bca3), (0x1d173, 0x1d17a), (0xe0000, 0x10ffff)]

/-- Is the character written as it is? -/
def isPrintable (c : Char) : Bool :=
  !unprintable.any fun r => r.1 ≤ c.toNat && c.toNat ≤ r.2

/-- How a character is written between quotes. -/
def escape (c : Char) : String :=
  if c = '"' then "\\\""
  else if c = '\\' then "\\\\"
  else if c = '\n' then "\\n"
  else if c = '\r' then "\\r"
  else if c = '\t' then "\\t"
  else if c = '\x00' then "\\0"
  else if isPrintable c then .singleton c
  else "\\u\x7b" ++ .ofList (Nat.toDigits 16 c.toNat) ++ "\x7d"

/-- A text between double quotes. -/
def quote (s : String) : String := "\"" ++ String.join (s.toList.map escape) ++ "\""

end Codegen.Text
