import PredicateLang.Number.Reading

/-!
# Numbers in JSON

A number is read into an integer of at most 64 bits and a power of ten, and the
two are combined by one operation on doubles. Digits that the integer cannot
take are dropped: in the whole part each of them counts as a power of ten, in
the fraction they count for nothing. A number beyond the doubles is an error.
-/

namespace PredicateLang.Json

/-- An integer below `2 ^ 64` and a power of ten. -/
structure Scaled where
  significand : Nat
  exponent : Int

namespace Scaled

/-- The integer with one more digit, if that fits 64 bits. -/
def push? (c : Char) (s : Scaled) : Option Scaled :=
  let n := s.significand * 10 + Number.digitValue c
  if n < UInt64.size then some { s with significand := n } else none

/-- Takes the digits of the whole part. From the first digit that does not fit on, each one
multiplies by ten. -/
def pushWhole : List Char → Scaled → Scaled
  | [], s => s
  | c :: cs, s =>
    match s.push? c with
    | some s => pushWhole cs s
    | none => { s with exponent := s.exponent + (cs.length + 1 : Nat) }

/-- Takes the digits of the fraction up to the first one that does not fit. -/
def pushFraction : List Char → Scaled → Scaled
  | [], s => s
  | c :: cs, s =>
    match s.push? c with
    | some s => pushFraction cs { s with exponent := s.exponent - 1 }
    | none => s

/-- Ten to the `n` as a double. -/
def powerOfTen (n : Nat) : Float :=
  Float.ofScientific 1 false n

/-- Divides by `10 ^ 308` so many times, or until nothing is left. -/
def shrink : Nat → Float → Float
  | 0, x => x
  | n + 1, x => if x == Float.ofBits 0 then x else shrink n (x / powerOfTen 308)

/-- The double nearest to the integer, multiplied or divided by a power of ten. -/
def toFloat? (s : Scaled) : Option Float :=
  let x := Number.ofWord s.significand
  if s.exponent < 0 then
    let n := s.exponent.natAbs
    some (shrink ((n - 1) / 308) x / powerOfTen ((n - 1) % 308 + 1))
  else if s.exponent ≤ 308 then
    let y := x * powerOfTen s.exponent.natAbs
    if y.isInf then none else some y
  else if s.significand = 0 then some x
  else none

end Scaled

/-- An exponent is a sign and digits. -/
structure Power where
  negative : Bool
  digits : List Char

/-- The greatest power of ten that is taken as written. -/
def maxPower : Nat := 0x7FFFFFFF

/-- Multiplies by a written power of ten. A power beyond the greatest leaves zero alone, and
takes every other number to zero or out of range. -/
def applyPower (power : Power) (s : Scaled) : Option Scaled :=
  let n := Number.ofDigits 10 power.digits
  if n ≤ maxPower then
    let n : Int := n
    some { s with exponent := if power.negative then s.exponent - n else s.exponent + n }
  else if power.negative ∨ s.significand = 0 then some ⟨0, 0⟩
  else none

/-- The parts of a written number. -/
structure NumberText where
  negative : Bool
  whole : List Char
  fraction : List Char
  power : Option Power

/-- The value of a written number, if it is in range. -/
def NumberText.value? (t : NumberText) : Option Float := do
  let s := Scaled.pushFraction t.fraction (Scaled.pushWhole t.whole ⟨0, 0⟩)
  let s ← t.power.elim (some s) (applyPower · s)
  let x ← s.toFloat?
  return if t.negative then -x else x

namespace NumberText

/-- The digits at the front of a text, at least one, and what follows. -/
def digits? (cs : List Char) : Option (List Char × List Char) :=
  let digits := cs.takeWhile Char.isDigit
  if digits.isEmpty then none else some (digits, cs.dropWhile Char.isDigit)

/-- The whole part, which has no leading zero unless it is zero. -/
def whole? (cs : List Char) : Option (List Char × List Char) := do
  let (digits, rest) ← digits? cs
  if digits.head? = some '0' ∧ digits.length ≠ 1 then none else some (digits, rest)

/-- The fraction after a point, if there is a point. -/
def fraction? : List Char → Option (List Char × List Char)
  | '.' :: cs => digits? cs
  | cs => some ([], cs)

/-- The sign and digits of an exponent after its mark. -/
def powerDigits? : List Char → Option (Power × List Char)
  | '-' :: cs => (digits? cs).map fun (digits, rest) => (⟨true, digits⟩, rest)
  | '+' :: cs => (digits? cs).map fun (digits, rest) => (⟨false, digits⟩, rest)
  | cs => (digits? cs).map fun (digits, rest) => (⟨false, digits⟩, rest)

/-- The exponent, if there is a mark for one. -/
def power? : List Char → Option (Option Power × List Char)
  | c :: cs =>
    if c = 'e' ∨ c = 'E' then (powerDigits? cs).map fun (power, rest) => (some power, rest)
    else some (none, c :: cs)
  | [] => some (none, [])

/-- The number at the front of a text, without its sign. -/
def unsigned? (negative : Bool) (cs : List Char) : Option (NumberText × List Char) := do
  let (whole, cs) ← whole? cs
  let (fraction, cs) ← fraction? cs
  let (power, cs) ← power? cs
  return (⟨negative, whole, fraction, power⟩, cs)

/-- The number at the front of a text. -/
def read? : List Char → Option (NumberText × List Char)
  | '-' :: cs => unsigned? true cs
  | cs => unsigned? false cs

theorem length_digits?_lt {cs digits rest : List Char} (h : digits? cs = some (digits, rest)) :
    rest.length < cs.length := by
  simp only [digits?] at h
  split at h
  · simp at h
  · rename_i hne
    have hlen := congrArg List.length (List.takeWhile_append_dropWhile (p := Char.isDigit) (l := cs))
    have hpos := List.length_pos_iff.2 (by simpa using hne : cs.takeWhile Char.isDigit ≠ [])
    simp only [Option.some.injEq, Prod.mk.injEq] at h
    simp only [List.length_append] at hlen
    rw [← h.2]
    omega

theorem length_whole?_lt {cs digits rest : List Char} (h : whole? cs = some (digits, rest)) :
    rest.length < cs.length := by
  simp only [whole?, Option.bind_eq_bind, Option.bind_eq_some_iff] at h
  obtain ⟨⟨digits', rest'⟩, hd, h⟩ := h
  have := length_digits?_lt hd
  split at h <;> simp_all

theorem length_fraction?_le {cs digits rest : List Char}
    (h : fraction? cs = some (digits, rest)) : rest.length ≤ cs.length := by
  unfold fraction? at h
  split at h
  · have := length_digits?_lt h
    simp only [List.length_cons]
    omega
  · simp_all

theorem length_powerDigits?_lt {cs rest : List Char} {power : Power}
    (h : powerDigits? cs = some (power, rest)) : rest.length < cs.length := by
  unfold powerDigits? at h
  split at h
  all_goals
    obtain ⟨⟨digits, rest'⟩, hd, h⟩ := Option.map_eq_some_iff.1 h
    have := length_digits?_lt hd
    simp_all
  all_goals omega

theorem length_power?_le {cs rest : List Char} {power : Option Power}
    (h : power? cs = some (power, rest)) : rest.length ≤ cs.length := by
  unfold power? at h
  split at h
  · split at h
    · obtain ⟨⟨power', rest'⟩, hd, h⟩ := Option.map_eq_some_iff.1 h
      have := length_powerDigits?_lt hd
      simp_all
      omega
    · simp_all
  · simp_all

theorem length_unsigned?_lt {negative : Bool} {cs rest : List Char} {t : NumberText}
    (h : unsigned? negative cs = some (t, rest)) : rest.length < cs.length := by
  simp only [unsigned?, Option.bind_eq_bind, Option.bind_eq_some_iff] at h
  obtain ⟨⟨whole, cs₁⟩, hw, ⟨fraction, cs₂⟩, hf, ⟨power, cs₃⟩, hp, h⟩ := h
  simp only [Option.pure_def, Option.some.injEq, Prod.mk.injEq] at h
  rw [← h.2]
  exact Nat.lt_of_le_of_lt (Nat.le_trans (length_power?_le hp) (length_fraction?_le hf))
    (length_whole?_lt hw)

/-- A number uses up characters. -/
theorem length_read?_lt {cs rest : List Char} {t : NumberText} (h : read? cs = some (t, rest)) :
    rest.length < cs.length := by
  unfold read? at h
  split at h
  · exact Nat.lt_succ_of_lt (length_unsigned?_lt h)
  · exact length_unsigned?_lt h

end NumberText
end PredicateLang.Json
