import PredicateLang.Number.Reading
import PredicateLang.Token.Lexeme

/-!
# String literals

A string literal stands between double quotes. A backslash starts an escape: a
letter for tab or line feed, a quote or backslash for itself, or a code point in
four or eight hexadecimal digits. Every other character stands for itself, line
feeds included.
-/

namespace PredicateLang

/-- What an escape stands for, how it is written after the backslash, and what follows it. -/
structure Escape where
  meaning : Except ScanError Char
  text : List Char
  rest : List Char

namespace Escape

/-- The character with a code point, if there is one. -/
def scalar? (n : Nat) : Option Char :=
  if n.isValidChar then some (Char.ofNat n) else none

/-- The code point in exactly `count` hexadecimal digits at the front of a text. -/
def codePoint (count : Nat) (cs : List Char) : Escape :=
  let digits := (cs.take count).takeWhile Number.isHexDigit
  let meaning := if digits.length = count then scalar? (Number.ofDigits 16 digits) else none
  ⟨meaning.elim (.error (.invalidUnicodeEscape (String.ofList digits))) .ok, digits,
    cs.drop digits.length⟩

/-- An escape whose letter has been read. -/
def after (letter : Char) (escape : Escape) : Escape :=
  { escape with text := letter :: escape.text }

/-- The escape at the front of the text after a backslash. -/
def read : List Char → Escape
  | [] => ⟨.error .unterminatedString, [], []⟩
  | 't' :: cs => ⟨.ok '\t', ['t'], cs⟩
  | 'n' :: cs => ⟨.ok '\n', ['n'], cs⟩
  | '"' :: cs => ⟨.ok '"', ['"'], cs⟩
  | '\\' :: cs => ⟨.ok '\\', ['\\'], cs⟩
  | 'u' :: cs => (codePoint 4 cs).after 'u'
  | 'U' :: cs => (codePoint 8 cs).after 'U'
  | c :: cs => ⟨.error (.invalidEscape c), [c], cs⟩

theorem codePoint_append (count : Nat) (cs : List Char) :
    (codePoint count cs).text ++ (codePoint count cs).rest = cs := by
  simp only [codePoint]
  have h : ∀ (n : Nat) (cs : List Char),
      (cs.take n).takeWhile Number.isHexDigit
        ++ cs.drop ((cs.take n).takeWhile Number.isHexDigit).length = cs := by
    intro n cs
    induction cs generalizing n with
    | nil => simp
    | cons c cs ih =>
      cases n with
      | zero => simp
      | succ n => by_cases hc : Number.isHexDigit c <;> simp [hc, ih]
  exact h count cs

theorem read_append (cs : List Char) : (read cs).text ++ (read cs).rest = cs := by
  unfold read
  split <;> simp [after, codePoint_append]

end Escape

/-- The rest of a string literal after its opening quote. -/
structure Quotation where
  content : Except ScanError (List Char)
  text : List Char
  rest : List Char

namespace Quotation

/-- A literal that starts with `c`, written as `spelling`, and goes on as `q`. -/
def cons (c : Char) (spelling : List Char) (q : Quotation) : Quotation :=
  ⟨q.content.map (c :: ·), spelling ++ q.text, q.rest⟩

/-- Reads up to the closing quote or to the first fault. -/
def read : List Char → Quotation
  | [] => ⟨.error .unterminatedString, [], []⟩
  | c :: cs =>
    if c = '"' then ⟨.ok [], ['"'], cs⟩
    else if c = '\\' then
      match (Escape.read cs).meaning with
      | .ok meaning => (read (Escape.read cs).rest).cons meaning ('\\' :: (Escape.read cs).text)
      | .error e => ⟨.error e, '\\' :: (Escape.read cs).text, (Escape.read cs).rest⟩
    else (read cs).cons c [c]
termination_by cs => cs.length
decreasing_by
  · have h := congrArg List.length (Escape.read_append cs)
    simp only [List.length_append, List.length_cons] at *
    omega
  · simp

theorem read_append (cs : List Char) : (read cs).text ++ (read cs).rest = cs := by
  fun_induction read cs with
  | case1 => rfl
  | case2 cs => rfl
  | case3 cs h1 meaning h2 ih => simp [cons, ih, Escape.read_append]
  | case4 cs h1 e h2 => simp [Escape.read_append]
  | case5 c cs h1 h2 ih => simp [cons, ih]

end Quotation

namespace Lexeme

/-- The string literal whose opening quote stands before `cs`. -/
def quotation (cs : List Char) : Lexeme :=
  let q := Quotation.read cs
  let kind := match q.content with
    | .ok content => .string (String.ofList content)
    | .error e => .malformed e
  ⟨kind, '"' :: q.text, q.rest⟩

theorem quotation_readFrom (cs : List Char) : (quotation cs).ReadFrom ('"' :: cs) :=
  ⟨by simp [quotation, Quotation.read_append], by simp [quotation]⟩

end Lexeme
end PredicateLang
