import PredicateLang.Json
import PredicateLang.Proofs.Value.Entries

/-!
# What a context holds

The values that can be reached from a context are those that its maps hold, at any
depth. A plain context is made of scalars and maps alone, and so is everything that can
be reached from it. Every JSON document becomes a plain context.
-/

namespace PredicateLang

namespace Value

/-- Whether the value is neither a map nor a host object. -/
def isScalar : Value → Bool
  | .nil | .boolean _ | .integer _ | .unsigned _ | .number _ | .string _ => true
  | .map _ _ | .host _ => false

/-- The context itself, and whatever is set in a map that is reached from it. -/
inductive Reached (context : Value) : Value → Prop
  | context : Reached context context
  | entry {id : Identity} {entries : Entries Value} {key : String} {v : Value} :
      Reached context (.map id entries) → Entries.get? key entries = some v → Reached context v

/-- Scalars, and maps in which only plain values are set. -/
inductive Plain : Value → Prop
  | scalar {v : Value} : v.isScalar = true → Plain v
  | map {id : Identity} {entries : Entries Value} :
      (∀ key v, Entries.get? key entries = some v → Plain v) → Plain (.map id entries)

variable {context v : Value}

theorem Reached.plain (h : Reached context v) (hcontext : context.Plain) : v.Plain := by
  induction h with
  | context => exact hcontext
  | entry _ hget ih =>
    cases ih with
    | scalar hscalar => cases hscalar
    | map hentries => exact hentries _ _ hget

theorem not_plain_host (ref : HostRef) : ¬ Plain (.host ref) := by
  intro h
  cases h with
  | scalar hscalar => cases hscalar

/-- A scalar, or a value of the context. The maps among the known values are the maps of the
context, with the same identity and the same entries. -/
def Known (context v : Value) : Prop :=
  v.isScalar = true ∨ Reached context v

theorem Known.reached {id : Identity} {entries : Entries Value}
    (h : Known context (.map id entries)) : Reached context (.map id entries) := by
  rcases h with hscalar | h
  · cases hscalar
  · exact h

theorem Known.plain (h : Known context v) (hcontext : context.Plain) : v.Plain := by
  rcases h with hscalar | h
  · exact .scalar hscalar
  · exact h.plain hcontext

theorem isScalar_literal (l : Literal) : l.value.isScalar = true := by
  cases l <;> rfl

end Value

namespace Json

mutual

theorem plain_toValue (id : Identity) : (j : Json) → (j.toValue id).Plain
  | .null | .boolean _ | .number _ | .string _ => .scalar rfl
  | .array items => by
    refine .map fun key v hget => ?_
    rcases List.mem_cons.mp (Entries.mem_of_get? hget) with heq | hmem
    · cases heq
      exact .scalar rfl
    · exact plain_itemEntries id 0 items _ hmem
  | .object members =>
    .map fun _ _ hget => plain_memberEntries id members _ (Entries.mem_of_get? hget)

theorem plain_itemEntries (id : Identity) (n : Nat) :
    (items : List Json) → ∀ entry ∈ itemEntries id n items, entry.2.Plain
  | [], _, h => by cases h
  | item :: items, entry, h => by
    rcases List.mem_cons.mp h with rfl | h
    · exact plain_toValue _ item
    · exact plain_itemEntries id (n + 1) items entry h

theorem plain_memberEntries (id : Identity) :
    (members : List (String × Json)) → ∀ entry ∈ memberEntries id members, entry.2.Plain
  | [], _, h => by cases h
  | (key, j) :: members, entry, h => by
    rcases List.mem_cons.mp h with rfl | h
    · exact plain_toValue _ j
    · exact plain_memberEntries id members entry h

end

end Json
end PredicateLang
