import PredicateLang.Number.Reading
import PredicateLang.Token.Lexeme

/-!
# Numerals

A numeral is hexadecimal after `0x`; octal when it has several digits, the first
of them zero, and neither fraction nor exponent; and decimal otherwise. Octal
and hexadecimal numerals have to fit 64 bits. A name must not follow directly.
-/

namespace PredicateLang

/-- An unsigned number at the front of a text, without a value if its digits have none in
their base. -/
structure Numeral where
  value : Option Float
  text : List Char
  rest : List Char

/-- A plus or minus at the front of a text, and what follows it. -/
def splitSign : List Char → List Char × List Char
  | '+' :: cs => (['+'], cs)
  | '-' :: cs => (['-'], cs)
  | cs => ([], cs)

namespace Numeral

/-- The value of digits in a base, if there are any and they fit 64 bits. -/
def word? (base : Nat) (digits : List Char) : Option Float :=
  let n := Number.ofDigits base digits
  if digits ≠ [] ∧ n < UInt64.size then some (Number.ofWord n) else none

/-- The digits after the point, if the text continues with a point and a digit. -/
def fraction : List Char → List Char
  | '.' :: cs => cs.takeWhile Char.isDigit
  | _ => []

/-- The fraction as it is written. -/
def fractionText (cs : List Char) : List Char :=
  if (fraction cs).isEmpty then [] else '.' :: fraction cs

/-- The exponent as it is written: a mark, an optional sign and at least one digit. -/
def exponentText : List Char → List Char
  | [] => []
  | mark :: cs =>
    let (sign, digits) := splitSign cs
    let digits := digits.takeWhile Char.isDigit
    if (mark = 'e' ∨ mark = 'E') ∧ digits ≠ [] then mark :: (sign ++ digits) else []

/-- The value of a written exponent, zero if there is none. -/
def exponent (written : List Char) : Int :=
  let (sign, digits) := splitSign (written.drop 1)
  let n : Int := Number.ofDigits 10 digits
  if sign = ['-'] then -n else n

def hexadecimal (mark : Char) (cs : List Char) : Numeral :=
  let digits := cs.takeWhile Number.isHexDigit
  ⟨word? 16 digits, '0' :: mark :: digits, cs.dropWhile Number.isHexDigit⟩

/-- Whether digits without fraction and exponent are octal. -/
def isOctal : List Char → Bool
  | '0' :: _ :: _ => true
  | _ => false

/-- The value of octal digits after their leading zero. -/
def octal? (digits : List Char) : Option Float :=
  if digits.all Number.isOctalDigit then word? 8 digits else none

def positional (cs : List Char) : Numeral :=
  let whole := cs.takeWhile Char.isDigit
  let afterWhole := cs.dropWhile Char.isDigit
  let point := fractionText afterWhole
  let afterPoint := afterWhole.drop point.length
  let power := exponentText afterPoint
  let value :=
    if point = [] ∧ power = [] ∧ isOctal whole then octal? (whole.drop 1)
    else some (Number.Decimal.ofParts whole (point.drop 1) (exponent power)).toFloat
  ⟨value, whole ++ point ++ power, afterPoint.drop power.length⟩

/-- The numeral at the front of a text that starts with a digit. -/
def read : List Char → Numeral
  | '0' :: 'x' :: cs => hexadecimal 'x' cs
  | '0' :: 'X' :: cs => hexadecimal 'X' cs
  | cs => positional cs

theorem drop_length_takeWhile (p : Char → Bool) (cs : List Char) :
    cs.drop (cs.takeWhile p).length = cs.dropWhile p := by
  induction cs with
  | nil => rfl
  | cons c cs ih => by_cases h : p c <;> simp [h, ih]

theorem fractionText_append_drop (cs : List Char) :
    fractionText cs ++ cs.drop (fractionText cs).length = cs := by
  unfold fractionText
  split
  · rfl
  · match cs with
    | [] => simp_all [fraction]
    | c :: cs =>
      by_cases hc : c = '.'
      · subst hc
        simp [fraction, drop_length_takeWhile, List.takeWhile_append_dropWhile]
      · simp_all [fraction]

theorem splitSign_append (cs : List Char) : (splitSign cs).1 ++ (splitSign cs).2 = cs := by
  unfold splitSign
  split <;> rfl

theorem exponentText_append_drop (cs : List Char) :
    exponentText cs ++ cs.drop (exponentText cs).length = cs := by
  match cs with
  | [] => rfl
  | mark :: cs =>
    simp only [exponentText]
    split
    · have hsplit := splitSign_append cs
      generalize (splitSign cs).1 = sign at *
      generalize (splitSign cs).2 = digits at *
      subst hsplit
      simp [List.drop_append, drop_length_takeWhile, List.takeWhile_append_dropWhile,
        List.drop_eq_nil_of_le]
    · rfl

theorem positional_append (cs : List Char) :
    (positional cs).text ++ (positional cs).rest = cs := by
  simp only [positional, List.append_assoc, exponentText_append_drop, fractionText_append_drop,
    List.takeWhile_append_dropWhile]

theorem read_append (cs : List Char) : (read cs).text ++ (read cs).rest = cs := by
  unfold read
  split
  · simp [hexadecimal, List.takeWhile_append_dropWhile]
  · simp [hexadecimal, List.takeWhile_append_dropWhile]
  · exact positional_append _

theorem read_text_ne_nil {c : Char} (hc : c.isDigit) (cs : List Char) :
    (read (c :: cs)).text ≠ [] := by
  unfold read
  split
  · simp [hexadecimal]
  · simp [hexadecimal]
  · simp [positional, hc]

end Numeral

namespace Lexeme

/-- Whether a number starts with `c` and the characters after it. A sign belongs to a number
only where an operand is expected. -/
def startsNumber (operandExpected : Bool) (c : Char) (cs : List Char) : Bool :=
  c.isDigit || (operandExpected && (c == '+' || c == '-') && (cs.head?.any Char.isDigit))

/-- The number at the front of a text that starts one. -/
def number (cs : List Char) : Lexeme :=
  let (sign, body) := splitSign cs
  let numeral := Numeral.read body
  let text := sign ++ numeral.text
  let invalid := fun text rest => malformed (.invalidNumber (String.ofList text)) text rest
  match numeral.value with
  | none => invalid text numeral.rest
  | some x =>
    let tail := numeral.rest.takeWhile continuesName
    if tail = [] then ⟨.number (if sign = ['-'] then -x else x), text, numeral.rest⟩
    else invalid (text ++ tail) (numeral.rest.dropWhile continuesName)

theorem number_readFrom {operandExpected : Bool} {c : Char} {cs : List Char}
    (h : startsNumber operandExpected c cs = true) : (number (c :: cs)).ReadFrom (c :: cs) := by
  have hsplit := Numeral.splitSign_append (c :: cs)
  have hread := Numeral.read_append (splitSign (c :: cs)).2
  have hne : (splitSign (c :: cs)).1 ++ (Numeral.read (splitSign (c :: cs)).2).text ≠ [] := by
    by_cases hc : c.isDigit
    · have : splitSign (c :: cs) = ([], c :: cs) := by
        unfold splitSign
        split <;> simp_all
      simp [this, Numeral.read_text_ne_nil hc cs]
    · have : c = '+' ∨ c = '-' := by
        simp_all [startsNumber]
      rcases this with rfl | rfl <;> simp [splitSign]
  constructor
  · unfold number
    simp only
    split
    · simp [malformed, hread, hsplit]
    · split
      · simp [hread, hsplit]
      · simp [malformed, List.takeWhile_append_dropWhile, hread, hsplit]
  · intro _
    unfold number
    simp only
    split
    · exact hne
    · split
      · exact hne
      · simp only [malformed]
        intro h
        exact hne (List.append_eq_nil_iff.1 h).1

end Lexeme
end PredicateLang
