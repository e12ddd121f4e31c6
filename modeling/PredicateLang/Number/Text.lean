import PredicateLang.Number.Shortest

/-!
# Numbers as text

A double is written with the digits of its shortest decimal. A `Layout` says
when they are written positionally and when with an exponent, and whether a
whole number carries a fraction.
-/

namespace PredicateLang.Number

/-- The digits of a decimal without trailing zeros, and the power of ten of the unit
before the first of them: `0.d₁d₂… * 10 ^ point`. -/
structure Digits where
  digits : List Char
  point : Int

/-- The digits of a decimal other than zero. -/
def Decimal.toDigits (d : Decimal) : Digits :=
  let written := Nat.toDigits 10 d.digits
  let kept := (written.reverse.dropWhile (· == '0')).reverse
  ⟨kept, written.length + d.exponent⟩

/-- How a double is laid out. -/
structure Layout where
  /-- Whether a nonzero number whose leading digit stands for `10 ^ e` is written positionally. -/
  positional : Int → Bool
  /-- Whether a whole number that is written positionally ends in `.0`. -/
  keepsFraction : Bool

/-- Every number is written positionally, and whole numbers without a fraction. -/
def Layout.plain : Layout := ⟨fun _ => true, false⟩

/-- Numbers from 0.0001 to below 10 ^ 16 are written positionally, whole ones with `.0`, and
all others with an exponent. -/
def Layout.precise : Layout := ⟨fun e => decide (-4 ≤ e) && decide (e < 16), true⟩

namespace Digits

/-- Digits around a point, with zeros where the digits do not reach it. -/
def positional (d : Digits) (fraction : Bool) : List Char :=
  let before := d.point.toNat
  if d.point ≤ 0 then ['0', '.'] ++ List.replicate (-d.point).toNat '0' ++ d.digits
  else if before < d.digits.length then d.digits.take before ++ '.' :: d.digits.drop before
  else d.digits ++ List.replicate (before - d.digits.length) '0'
    ++ if fraction then ['.', '0'] else []

/-- One digit before the point, and the exponent. -/
def scientific (d : Digits) : List Char :=
  let fraction := d.digits.drop 1
  d.digits.take 1 ++ (if fraction.isEmpty then [] else '.' :: fraction)
    ++ 'e' :: (toString (d.point - 1)).toList

end Digits

/-- The text of a magnitude. -/
def Magnitude.text (layout : Layout) (m : Magnitude) : List Char :=
  if m.significand = 0 then if layout.keepsFraction then ['0', '.', '0'] else ['0']
  else
    let d := m.shortest.toDigits
    if layout.positional (d.point - 1) then d.positional layout.keepsFraction else d.scientific

/-- The text of a double in the given layout. The sign of a value that is not a number is
not shown. -/
def text (layout : Layout) (x : Float) : String :=
  match Binary64.ofFloat x with
  | .nan => "NaN"
  | .infinite negative => if negative then "-inf" else "inf"
  | .finite negative m =>
    String.ofList ((if negative then ['-'] else []) ++ m.text layout)

/-- The text of a double in expressions and results. -/
def plain (x : Float) : String := text .plain x

/-- The text of a double in listings, which tells it from an integer. -/
def precise (x : Float) : String := text .precise x

end PredicateLang.Number
