import PredicateLang.Number.Text
import PredicateLang.Source
import PredicateLang.Text.Quoted

/-!
# Tokens

The words of the language: literals, names, and symbols. A text that forms none
of them becomes a malformed token, which carries the reason.
-/

namespace PredicateLang

/-- Why a text is no token. -/
inductive ScanError where
  | unexpectedCharacter (c : Char)
  | unterminatedString
  | invalidEscape (c : Char)
  | invalidUnicodeEscape (digits : String)
  | invalidNumber (text : String)
  | invalidUuid (text : String)
  deriving Repr, DecidableEq

def ScanError.message : ScanError → String
  | .unexpectedCharacter c => "Unexpected character " ++ Text.quotedChar c
  | .unterminatedString => "Unterminated string literal"
  | .invalidEscape c => "Invalid escape sequence: \\" ++ c.toString
  | .invalidUnicodeEscape digits => "Invalid unicode escape: " ++ Text.quoted digits
  | .invalidNumber text => "Invalid numeric literal: " ++ text
  | .invalidUuid text => "Invalid UUID literal: " ++ text

/-- Operators and punctuation. -/
inductive Symbol where
  | plus | minus | star | slash | percent
  | leftParen | rightParen | dot
  | less | greater | equal | notEqual | lessOrEqual | greaterOrEqual
  | or | and
  deriving Repr, DecidableEq

def Symbol.text : Symbol → String
  | .plus => "+"
  | .minus => "-"
  | .star => "*"
  | .slash => "/"
  | .percent => "%"
  | .leftParen => "("
  | .rightParen => ")"
  | .dot => "."
  | .less => "<"
  | .greater => ">"
  | .equal => "=="
  | .notEqual => "!="
  | .lessOrEqual => "<="
  | .greaterOrEqual => ">="
  | .or => "||"
  | .and => "&&"

/-- What a token is. -/
inductive TokenKind where
  | endOfInput
  | malformed (error : ScanError)
  | number (x : Float)
  | string (content : String)
  | identifier (name : String)
  | uuid (digits : String)
  | boolean (b : Bool)
  | nil
  | symbol (s : Symbol)

namespace TokenKind

/-- The token as it is shown in messages. -/
def text : TokenKind → String
  | .endOfInput => "end-of-input"
  | .malformed e => "error: " ++ e.message
  | .number x => Number.plain x
  | .string content => Text.quoted content
  | .identifier name => name
  | .uuid digits => "U:" ++ digits
  | .boolean b => toString b
  | .nil => "nil"
  | .symbol s => s.text

/-- Whether the token can end an operand, so that a sign after it is an operator. -/
def endsOperand : TokenKind → Bool
  | .number _ | .string _ | .identifier _ | .uuid _ | .boolean _ | .nil => true
  | .symbol s => s == .rightParen
  | .endOfInput | .malformed _ => false

/-- Whether no further token follows this one. -/
def isFinal : TokenKind → Bool
  | .endOfInput | .malformed _ => true
  | _ => false

end TokenKind

/-- A token and the stretch of the source that it was read from. -/
structure Token where
  kind : TokenKind
  span : Span

end PredicateLang
