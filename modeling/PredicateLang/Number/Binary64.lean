/-!
# Doubles as exact numbers

A finite double is a sign and a natural number times a power of two. Everything
that has to be exact about doubles, their digits and their whole part, is
computed from that form.
-/

namespace PredicateLang.Number

/-- The exact magnitude `significand * 2 ^ exponent` of a finite double. -/
structure Magnitude where
  significand : Nat
  exponent : Int
  /-- The next smaller double is half as far away as the next larger one. -/
  narrowBelow : Bool
  deriving Repr, DecidableEq

/-- What the 64 bits of a double stand for. -/
inductive Binary64 where
  | nan
  | infinite (negative : Bool)
  | finite (negative : Bool) (magnitude : Magnitude)
  deriving Repr, DecidableEq

namespace Binary64

/-- The leading one of a significand of 53 bits, which the bits of a double leave out. -/
def leadingBit : Nat := 0x10000000000000

/-- Reads sign, exponent and fraction from the bits of a double. -/
def ofBits (bits : UInt64) : Binary64 :=
  let negative := bits.toNat.testBit 63
  let exponent : Nat := (bits.toNat >>> 52) % 0x800
  let fraction : Nat := bits.toNat % leadingBit
  if exponent = 2047 then
    if fraction = 0 then .infinite negative else .nan
  else if exponent = 0 then .finite negative ⟨fraction, -1074, false⟩
  else
    .finite negative
      ⟨leadingBit + fraction, Int.ofNat exponent - 1075, fraction == 0 && 1 < exponent⟩

def ofFloat (x : Float) : Binary64 :=
  ofBits x.toBits

end Binary64

/-- The whole part of a magnitude. -/
def Magnitude.floor (m : Magnitude) : Nat :=
  (m.significand <<< m.exponent.toNat) >>> (-m.exponent).toNat

/-- The least signed 64-bit integer. -/
def minSigned : Int := -0x8000000000000000

/-- The largest signed 64-bit integer. -/
def maxSigned : Int := 0x7FFFFFFFFFFFFFFF

/-- `n`, or the end of the signed 64-bit range that it lies beyond. -/
def saturate (n : Int) : Int :=
  max minSigned (min maxSigned n)

/-- The whole part of `x`, rounded toward zero and kept in the signed 64-bit range;
zero when `x` is not a number. -/
def truncate (x : Float) : Int :=
  match Binary64.ofFloat x with
  | .nan => 0
  | .infinite true => minSigned
  | .infinite false => maxSigned
  | .finite true m => saturate (-m.floor)
  | .finite false m => saturate m.floor

theorem saturate_bounds (n : Int) : minSigned ≤ saturate n ∧ saturate n ≤ maxSigned := by
  simp only [saturate, minSigned, maxSigned]
  omega

/-- A truncated double is a signed 64-bit integer. -/
theorem truncate_bounds (x : Float) : minSigned ≤ truncate x ∧ truncate x ≤ maxSigned := by
  unfold truncate
  split
  · decide
  · decide
  · decide
  · exact saturate_bounds _
  · exact saturate_bounds _

end PredicateLang.Number
