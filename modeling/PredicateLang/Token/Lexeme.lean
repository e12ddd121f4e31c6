import PredicateLang.Token

/-!
# Lexemes

A lexeme is what is read off the front of a text: a token, the characters that
make it up, and the characters that follow. The two parts always concatenate to
the text that was read.
-/

namespace PredicateLang

/-- A token read off the front of a text. -/
structure Lexeme where
  kind : TokenKind
  text : List Char
  rest : List Char

namespace Lexeme

/-- ASCII letters and the underscore start a name. -/
def startsName (c : Char) : Bool :=
  c.isAlpha || c == '_'

/-- ASCII letters, digits and the underscore continue a name. -/
def continuesName (c : Char) : Bool :=
  c.isAlphanum || c == '_'

/-- A lexeme that is no token, for the reason given. -/
def malformed (error : ScanError) (text rest : List Char) : Lexeme :=
  ⟨.malformed error, text, rest⟩

/-- The lexeme is made of the first characters of `text`, of at least one unless the text is
empty. -/
structure ReadFrom (text : List Char) (lexeme : Lexeme) : Prop where
  append : lexeme.text ++ lexeme.rest = text
  progress : text ≠ [] → lexeme.text ≠ []

theorem ReadFrom.length_rest_lt {text : List Char} {lexeme : Lexeme}
    (h : lexeme.ReadFrom text) (hne : text ≠ []) : lexeme.rest.length < text.length := by
  have hlen := congrArg List.length h.append
  have hpos := List.length_pos_iff.2 (h.progress hne)
  simp only [List.length_append] at hlen
  omega

end Lexeme
end PredicateLang
