/-!
# Keyed entries

The entries of a map are a list of pairs in the order in which they were set. A
later pair replaces an earlier one with the same key. `sorted` is the same map
with each key once, ascending by code points, which is the order of the UTF-8
bytes.
-/

namespace PredicateLang

/-- Pairs of a key and what was set under it. The last pair of a key counts. -/
abbrev Entries (α : Type) := List (String × α)

namespace Entries

variable {α : Type}

/-- What is set under a key. -/
def get? (key : String) : Entries α → Option α
  | [] => none
  | (k, a) :: rest =>
    match get? key rest with
    | some b => some b
    | none => if k = key then some a else none

/-- Puts a pair into ascending entries that came later and count more. -/
def place (key : String) (a : α) : Entries α → Entries α
  | [] => [(key, a)]
  | (k, b) :: rest =>
    if key < k then (key, a) :: (k, b) :: rest
    else if key = k then (k, b) :: rest
    else (k, b) :: place key a rest

/-- Each key once, ascending. -/
def sorted : Entries α → Entries α
  | [] => []
  | (k, a) :: rest => place k a (sorted rest)

/-- The number of keys. -/
def size (entries : Entries α) : Nat :=
  entries.sorted.length

end Entries
end PredicateLang
