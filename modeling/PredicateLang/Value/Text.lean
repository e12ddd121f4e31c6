import PredicateLang.Value

/-!
# Values as text

`text` is how a result is printed: strings in quotes, maps in braces with their
keys ascending, host objects by type name. `inspect` also names the kind of each
value.
-/

namespace PredicateLang.Value

/-- Pairs of a key and a text, separated by commas, in braces. -/
def inBraces (entries : List (String × String)) : String :=
  "\x7b" ++ String.intercalate ", " (entries.map fun (key, text) => key ++ ": " ++ text) ++ "\x7d"

mutual

/-- The text of a value in results and messages. -/
def text : Value → String
  | .nil => "nil"
  | .boolean b => toString b
  | .integer n => toString n.toInt
  | .unsigned n => toString n.toNat
  | .number x => Number.plain x
  | .string s => Text.quoted s
  | .map _ entries => inBraces (entryTexts entries).sorted
  | .host ref => "<" ++ ref.typeName ++ ">"

/-- The texts of the values of entries. -/
def entryTexts : Entries Value → Entries String
  | [] => []
  | (key, value) :: rest => (key, value.text) :: entryTexts rest

end

mutual

/-- The text of a value with the name of its kind. -/
def inspect : Value → String
  | .nil => "Nil"
  | .boolean b => "Boolean(" ++ toString b ++ ")"
  | .integer n => "Integer(" ++ toString n.toInt ++ ")"
  | .unsigned n => "Unsigned(" ++ toString n.toNat ++ ")"
  | .number x => "Number(" ++ Number.precise x ++ ")"
  | .string s => "String(" ++ Text.quoted s ++ ")"
  | .map _ entries =>
    let quoted := (inspectEntries entries).sorted.map fun (key, text) => (Text.quoted key, text)
    "Map(" ++ inBraces quoted ++ ")"
  | .host ref => "Host<" ++ ref.typeName ++ ">"

/-- The inspected texts of the values of entries. -/
def inspectEntries : Entries Value → Entries String
  | [] => []
  | (key, value) :: rest => (key, value.inspect) :: inspectEntries rest

end

end PredicateLang.Value
