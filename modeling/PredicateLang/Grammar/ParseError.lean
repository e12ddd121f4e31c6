import PredicateLang.Grammar.Rule

/-!
# Parse errors

A parse error names the fault, the token at which it was noticed, and the rules
that were being parsed there.
-/

namespace PredicateLang

inductive ParseFault where
  | lexical (error : ScanError)
  | unexpectedEnd
  | unexpected (found : TokenKind)
  | expected (wanted : Symbol)
  | expectedIdentifier
  | tooDeep (limit : Nat)

def ParseFault.message : ParseFault → String
  | .lexical e => e.message
  | .unexpectedEnd => "Unexpected end-of-input"
  | .unexpected found => "Unexpected \"" ++ found.text ++ "\""
  | .expected wanted => "Expected \"" ++ wanted.text ++ "\""
  | .expectedIdentifier => "Expected identifier"
  | .tooDeep limit => s!"Expression nested deeper than {limit} levels"

structure ParseError where
  fault : ParseFault
  /-- The rules that were active, outermost first. -/
  rules : List Rule
  token : Token

/-- The fault of a token that cannot stand where it is found. -/
def TokenKind.misplaced (otherwise : ParseFault) : TokenKind → ParseFault
  | .malformed e => .lexical e
  | _ => otherwise

namespace ParseError

/-- The line that tells which rules were active. -/
def trail (e : ParseError) : String :=
  if e.rules.isEmpty then ""
  else "While parsing " ++ String.intercalate " > " (e.rules.map Rule.name) ++ "\n"

/-- The full text of an error in `source`. -/
def message (source : String) (e : ParseError) : String :=
  e.trail ++ e.fault.message ++ " at " ++ e.token.span.location source
    ++ " but found \"" ++ e.token.kind.text ++ "\""

end ParseError
end PredicateLang
