import PredicateLang.Json.Token

/-!
# Reading JSON documents

The tokens of a document drive a stack of containers that are still open. A
document has exactly one value, and at most `maxOpen` containers may be open at
a time.
-/

namespace PredicateLang.Json

/-- How deeply containers may be nested. -/
def maxOpen : Nat := 127

/-- A container whose closing bracket has not been read. The latest part comes first. -/
inductive Container where
  | array (items : List Json)
  /-- The value of the last key is being read. -/
  | object (members : List (String × Json)) (key : String)

/-- What may come next. -/
inductive Expected where
  | value
  | valueOrClose
  | key
  | keyOrClose
  | colon
  | commaOrClose
  deriving Repr, DecidableEq

/-- A reader is inside some containers, innermost first, or has the whole document. -/
inductive Reader where
  | inside (containers : List Container) (expected : Expected)
  | done (document : Json)

namespace Reader

def start : Reader := .inside [] .value

/-- A value is complete. -/
def supply (j : Json) : List Container → Reader
  | [] => .done j
  | .array items :: outer => .inside (.array (j :: items) :: outer) .commaOrClose
  | .object members key :: outer => .inside (.object ((key, j) :: members) key :: outer) .commaOrClose

/-- A container is opened. -/
def enter (c : Container) (expected : Expected) (containers : List Container) : Option Reader :=
  if containers.length < maxOpen then some (.inside (c :: containers) expected) else none

/-- A value starts or is complete. -/
def value? (containers : List Container) : Token → Option Reader
  | .string s => some (supply (.string s) containers)
  | .scalar j => some (supply j containers)
  | .openArray => enter (.array []) .valueOrClose containers
  | .openObject => enter (.object [] "") .keyOrClose containers
  | _ => none

/-- The innermost container is closed. -/
def close? : List Container → Token → Option Reader
  | .array items :: outer, .closeArray => some (supply (.array items.reverse) outer)
  | .object members _ :: outer, .closeObject => some (supply (.object members.reverse) outer)
  | _, _ => none

/-- A key is read. -/
def key? : List Container → Token → Option Reader
  | .object members _ :: outer, .string s => some (.inside (.object members s :: outer) .colon)
  | _, _ => none

/-- Another part of the innermost container follows. -/
def comma? : List Container → Option Reader
  | [] => none
  | .array items :: outer => some (.inside (.array items :: outer) .value)
  | .object members key :: outer => some (.inside (.object members key :: outer) .key)

def step (reader : Reader) (token : Token) : Option Reader :=
  match reader with
  | .done _ => none
  | .inside containers .value => value? containers token
  | .inside containers .valueOrClose => (close? containers token).or (value? containers token)
  | .inside containers .key => key? containers token
  | .inside containers .keyOrClose => (close? containers token).or (key? containers token)
  | .inside containers .colon =>
    match token with
    | .colon => some (.inside containers .value)
    | _ => none
  | .inside containers .commaOrClose =>
    match token with
    | .comma => comma? containers
    | _ => close? containers token

def document? : Reader → Option Json
  | .done j => some j
  | .inside _ _ => none

end Reader

/-- The document that a text holds, if it holds one and nothing else. -/
def parse? (text : String) : Option Json := do
  let tokens ← tokens? text.toList
  let reader ← tokens.foldlM Reader.step .start
  reader.document?

end PredicateLang.Json
