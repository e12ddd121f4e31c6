import PredicateLang.Text.Blank
import PredicateLang.Token.Numeral
import PredicateLang.Token.Quotation
import PredicateLang.Token.Word

/-!
# Scanning

A scanner hands out the tokens of a source one at a time. White space between
tokens is skipped. A sign is part of a number where an operand is expected, and
an operator everywhere else. After the last token the end of input is handed out
for ever, and after a malformed token that same token.
-/

namespace PredicateLang

namespace Symbol

/-- The symbols in the order in which they are tried. Longer ones come first. -/
def all : List Symbol :=
  [.equal, .notEqual, .lessOrEqual, .greaterOrEqual, .or, .and, .plus, .minus, .star, .slash,
   .percent, .leftParen, .rightParen, .dot, .less, .greater]

/-- The first symbol that a text starts with. -/
def read? (cs : List Char) : Option Symbol :=
  all.find? fun s => s.text.toList.isPrefixOf cs

end Symbol

namespace Lexeme

/-- The symbol that `c` starts, or the lone `c` as an unexpected character. -/
def symbol (c : Char) (cs : List Char) : Lexeme :=
  match Symbol.read? (c :: cs) with
  | some s => ⟨.symbol s, s.text.toList, (c :: cs).drop s.text.toList.length⟩
  | none => malformed (.unexpectedCharacter c) [c] cs

theorem symbol_readFrom (c : Char) (cs : List Char) : (symbol c cs).ReadFrom (c :: cs) := by
  unfold symbol
  split
  · rename_i s h
    have hs := List.find?_some h
    obtain ⟨rest, hrest⟩ := List.isPrefixOf_iff_prefix.1 hs
    constructor
    · simp only
      rw [← hrest, List.drop_left]
    · intro _
      cases s <;> simp [Symbol.text]
  · exact ⟨rfl, by simp [malformed]⟩

/-- The lexeme at the front of a text that does not start with white space. -/
def read (operandExpected : Bool) : List Char → Lexeme
  | [] => ⟨.endOfInput, [], []⟩
  | c :: cs =>
    if startsNumber operandExpected c cs then number (c :: cs)
    else if c = '"' then quotation cs
    else if startsName c then word (c :: cs)
    else symbol c cs

theorem read_readFrom (operandExpected : Bool) (cs : List Char) :
    (read operandExpected cs).ReadFrom cs := by
  unfold read
  split
  · exact ⟨rfl, by simp⟩
  · split
    · exact number_readFrom ‹_›
    · split
      · rename_i h
        exact h ▸ quotation_readFrom _
      · split
        · exact word_readFrom ‹_› _
        · exact symbol_readFrom _ _

end Lexeme

/-- A place in a source text, and what is known there about the tokens before it. -/
structure Scanner where
  /-- The characters that have not been read. -/
  rest : List Char
  /-- The number of bytes that have been read. -/
  offset : Nat
  /-- Whether the last token, if there is one, leaves an operand to be expected. -/
  operandExpected : Bool
  /-- The malformed token that ended the scan. -/
  failed : Option Token

namespace Scanner

/-- The scanner at the start of a source. -/
def start (source : String) : Scanner :=
  ⟨source.toList, 0, true, none⟩

/-- The next token of a scanner that has not failed, and the scanner after it. -/
def advance (s : Scanner) : Token × Scanner :=
  let gap := s.rest.takeWhile Text.isBlank
  let lexeme := Lexeme.read s.operandExpected (s.rest.dropWhile Text.isBlank)
  let offset := s.offset + Source.byteSize gap
  let length := Source.byteSize lexeme.text
  let token : Token := ⟨lexeme.kind, ⟨offset, length⟩⟩
  let next : Scanner := { s with rest := lexeme.rest, offset := offset + length }
  match lexeme.kind with
  | .malformed _ => (token, { next with failed := some token })
  | kind => (token, { next with operandExpected := !kind.endsOperand })

/-- The next token and the scanner after it. -/
def scan (s : Scanner) : Token × Scanner :=
  match s.failed with
  | some token => (token, s)
  | none => s.advance

theorem advance_rest (s : Scanner) :
    s.advance.2.rest = (Lexeme.read s.operandExpected (s.rest.dropWhile Text.isBlank)).rest := by
  simp only [advance]
  split <;> rfl

theorem advance_kind (s : Scanner) :
    s.advance.1.kind = (Lexeme.read s.operandExpected (s.rest.dropWhile Text.isBlank)).kind := by
  simp only [advance]
  split <;> rfl

/-- Every token but the end of input uses up characters. -/
theorem length_rest_advance_lt {s : Scanner} (h : s.advance.1.kind.isFinal = false) :
    s.advance.2.rest.length < s.rest.length := by
  rw [advance_rest]
  rw [advance_kind] at h
  have hle : (s.rest.dropWhile Text.isBlank).length ≤ s.rest.length := by
    have := congrArg List.length (List.takeWhile_append_dropWhile (p := Text.isBlank) (l := s.rest))
    simp only [List.length_append] at this
    omega
  have hread := Lexeme.read_readFrom s.operandExpected (s.rest.dropWhile Text.isBlank)
  by_cases hne : s.rest.dropWhile Text.isBlank = []
  · rw [hne] at h
    simp [Lexeme.read, TokenKind.isFinal] at h
  · exact Nat.lt_of_lt_of_le (hread.length_rest_lt hne) hle

/-- The tokens up to the first one that no other follows. -/
def tokensFrom (s : Scanner) : List Token :=
  match s.failed with
  | some token => [token]
  | none =>
    if s.advance.1.kind.isFinal = true then [s.advance.1]
    else s.advance.1 :: tokensFrom s.advance.2
termination_by s.rest.length
decreasing_by exact length_rest_advance_lt (by simp_all)

/-- The first `n` tokens that repeated scanning hands out. -/
def take : Nat → Scanner → List Token
  | 0, _ => []
  | n + 1, s => s.scan.1 :: take n s.scan.2

end Scanner

/-- All tokens of a source. The last one is the end of input or a malformed token. -/
def tokens (source : String) : List Token :=
  (Scanner.start source).tokensFrom

end PredicateLang
