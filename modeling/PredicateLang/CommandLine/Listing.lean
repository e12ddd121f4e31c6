import PredicateLang.Token.Scanner

/-!
# Token listings

One line for each token: where it starts, how long it is, what it is, and the
text it was read from.
-/

namespace PredicateLang

def ScanError.inspect : ScanError → String
  | .unexpectedCharacter c => "UnexpectedCharacter(" ++ Text.quotedChar c ++ ")"
  | .unterminatedString => "UnterminatedString"
  | .invalidEscape c => "InvalidEscape(" ++ Text.quotedChar c ++ ")"
  | .invalidUnicodeEscape digits => "InvalidUnicodeEscape(" ++ Text.quoted digits ++ ")"
  | .invalidNumber text => "InvalidNumber(" ++ Text.quoted text ++ ")"
  | .invalidUuid text => "InvalidUuid(" ++ Text.quoted text ++ ")"

def Symbol.inspect : Symbol → String
  | .plus => "Plus"
  | .minus => "Minus"
  | .star => "Star"
  | .slash => "Slash"
  | .percent => "Percent"
  | .leftParen => "LeftParen"
  | .rightParen => "RightParen"
  | .dot => "Dot"
  | .less => "Less"
  | .greater => "Greater"
  | .equal => "EqualEqual"
  | .notEqual => "BangEqual"
  | .lessOrEqual => "LessEqual"
  | .greaterOrEqual => "GreaterEqual"
  | .or => "Or"
  | .and => "And"

/-- The token with the name of its kind. -/
def TokenKind.inspect : TokenKind → String
  | .endOfInput => "Eof"
  | .malformed e => "Error(" ++ e.inspect ++ ")"
  | .number x => "Number(" ++ Number.precise x ++ ")"
  | .string content => "String(" ++ Text.quoted content ++ ")"
  | .identifier name => "Identifier(" ++ Text.quoted name ++ ")"
  | .uuid digits => "Uuid(" ++ Text.quoted digits ++ ")"
  | .boolean b => if b then "True" else "False"
  | .nil => "Nil"
  | .symbol s => s.inspect

namespace CommandLine

/-- The blanks that fill `text` up to a width in characters. -/
def padding (width : Nat) (text : String) : String :=
  String.ofList (List.replicate (width - text.length) ' ')

def padLeft (width : Nat) (text : String) : String :=
  padding width text ++ text

def padRight (width : Nat) (text : String) : String :=
  text ++ padding width text

/-- The line of a token. -/
def listingLine (source : String) (t : Token) : String :=
  String.intercalate " "
    [padLeft 4 (toString t.span.offset), padLeft 4 (toString t.span.length),
     padRight 24 t.kind.inspect, t.span.excerpt source]

/-- The lines of all tokens of a source. -/
def listing (source : String) : String :=
  String.join ((tokens source).map fun t => listingLine source t ++ "\n")

end CommandLine
end PredicateLang
