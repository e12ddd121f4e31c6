import PredicateLang.Value

/-!
# JSON documents

A document becomes a value by turning objects and arrays into maps. An array has
its items under their indices and its length under `length`. Numbers are
doubles, like the numbers of the language.
-/

namespace PredicateLang

inductive Json where
  | null
  | boolean (b : Bool)
  | number (x : Float)
  | string (s : String)
  | array (items : List Json)
  | object (members : List (String × Json))

namespace Json

mutual

/-- The value of a document whose outermost map has the identity `id`. -/
def toValue (id : Identity) : Json → Value
  | .null => .nil
  | .boolean b => .boolean b
  | .number x => .number x
  | .string s => .string s
  | .array items =>
    .map id (("length", .number (Float.ofNat items.length)) :: itemEntries id 0 items)
  | .object members => .map id (memberEntries id members)

/-- The entries of array items from the index `n` on. -/
def itemEntries (id : Identity) (n : Nat) : List Json → Entries Value
  | [] => []
  | item :: items =>
    (toString n, toValue (id.child (toString n)) item) :: itemEntries id (n + 1) items

/-- The entries of object members. -/
def memberEntries (id : Identity) : List (String × Json) → Entries Value
  | [] => []
  | (key, j) :: members => (key, toValue (id.child key) j) :: memberEntries id members

end

end Json
end PredicateLang
