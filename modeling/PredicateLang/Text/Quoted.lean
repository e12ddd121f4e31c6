import PredicateLang.Text.Obscure

/-!
# Quoted text

A text is shown between double quotes and a character between single quotes.
The quote that closes, the backslash, the four named controls and every obscure
character are escaped; all else stands for itself.
-/

namespace PredicateLang.Text

/-- The lower-case hexadecimal digits of `n`, without padding. -/
def hexDigits (n : Nat) : List Char :=
  Nat.toDigits 16 n

/-- How `c` is written between two quotes of the kind `quote`. -/
def escaped (quote c : Char) : List Char :=
  if c = quote ∨ c = '\\' then ['\\', c]
  else if c = '\n' then ['\\', 'n']
  else if c = '\r' then ['\\', 'r']
  else if c = '\t' then ['\\', 't']
  else if c.toNat = 0 then ['\\', '0']
  else if isObscure c then ['\\', 'u', '\x7b'] ++ hexDigits c.toNat ++ ['\x7d']
  else [c]

/-- `text` in quotes of the kind `quote`. -/
def enclosed (quote : Char) (text : List Char) : String :=
  String.ofList (quote :: (text.flatMap (escaped quote) ++ [quote]))

/-- A text in double quotes. -/
def quoted (text : String) : String :=
  enclosed '"' text.toList

/-- A character in single quotes. -/
def quotedChar (c : Char) : String :=
  enclosed '\'' [c]

end PredicateLang.Text
