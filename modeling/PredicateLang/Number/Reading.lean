import PredicateLang.Number.Shortest

/-!
# Reading numbers

Digits are read in a base of choice. A decimal is rounded to the nearest double,
ties to the even significand; beyond `10 ^ 400` its exponent alone decides.
-/

namespace PredicateLang.Number

/-- The value of a digit, up to fifteen for `f` and `F`. -/
def digitValue (c : Char) : Nat :=
  if c.isDigit then c.toNat - '0'.toNat
  else if 'a' ≤ c ∧ c ≤ 'f' then c.toNat - 'a'.toNat + 10
  else c.toNat - 'A'.toNat + 10

/-- Digits and the letters `a` to `f` of either case. -/
def isHexDigit (c : Char) : Bool :=
  c.isDigit || (decide ('a' ≤ c) && decide (c ≤ 'f')) || (decide ('A' ≤ c) && decide (c ≤ 'F'))

/-- The digits `0` to `7`. -/
def isOctalDigit (c : Char) : Bool :=
  decide ('0' ≤ c) && decide (c ≤ '7')

/-- The number that a list of digits denotes in a base, the first digit weighing most. -/
def ofDigits (base : Nat) (digits : List Char) : Nat :=
  digits.foldl (fun n c => n * base + digitValue c) 0

/-- A natural number below `2 ^ 64` as the nearest double. -/
def ofWord (n : Nat) : Float :=
  (UInt64.ofNat n).toFloat

namespace Decimal

/-- The decimal written with these digits before and after the point, times `10 ^ e`. -/
def ofParts (whole fraction : List Char) (e : Int) : Decimal :=
  ⟨ofDigits 10 (whole ++ fraction), e - fraction.length⟩

/-- How a decimal compares with the range that doubles can tell from zero and infinity. -/
inductive Size where
  | vanishing
  | ordinary
  | overwhelming

/-- A decimal of `b + 1` bits has at most `b / 3 + 1` digits. -/
def size (d : Decimal) : Size :=
  if d.digits = 0 then .vanishing
  else if 400 < d.exponent then .overwhelming
  else if d.exponent + (Nat.log2 d.digits / 3 + 1 : Nat) < -400 then .vanishing
  else .ordinary

/-- The nearest double. -/
def toFloat (d : Decimal) : Float :=
  match d.size with
  | .vanishing => Float.ofBits 0
  | .overwhelming => Float.ofBits 0x7FF0000000000000
  | .ordinary => Float.ofScientific d.digits (decide (d.exponent < 0)) d.exponent.natAbs

/-- The nearest 32-bit float. -/
def toFloat32 (d : Decimal) : Float32 :=
  match d.size with
  | .vanishing => Float32.ofBits 0
  | .overwhelming => Float32.ofBits 0x7F800000
  | .ordinary => Float32.ofScientific d.digits (decide (d.exponent < 0)) d.exponent.natAbs

end Decimal

end PredicateLang.Number
