import PredicateLang.Eval.Operation
import PredicateLang.Proofs.Text.ByteOrder
import PredicateLang.Proofs.Value.Reach

/-!
# The text of a map

A table hands out its keys in an order of its own. Whoever prints a map sorts them by their bytes
first, so the text of a map is the same for all orders, at any depth, and so is the text of
another map with the same contents, whatever its identity and however often and in which order
its keys were set. It shows each key once, with what was set there last.
-/

namespace PredicateLang

namespace Entries

variable {α : Type}

/-- A table with these entries may hand out its keys in this order: each key that is set, once. -/
structure HandsOut (entries : Entries α) (keys : List String) : Prop where
  nodup : keys.Nodup
  mem_iff : ∀ key, key ∈ keys ↔ ∃ a, get? key entries = some a

theorem exists_handsOut (entries : Entries α) : ∃ keys, entries.HandsOut keys := by
  have hascending := ascending_sorted entries
  refine ⟨entries.sorted.map Prod.fst, ?_, fun key => ?_⟩
  · exact List.pairwise_map.mpr (hascending.imp fun hlt => hlt.ne)
  · constructor
    · intro hkey
      obtain ⟨⟨_, a⟩, hmem, rfl⟩ := List.mem_map.mp hkey
      exact ⟨a, by rw [← get?_sorted]; exact hascending.mem_iff.mp hmem⟩
    · rintro ⟨a, hget⟩
      rw [← get?_sorted] at hget
      exact List.mem_map_of_mem (mem_of_get? hget)

theorem get?_map_key (f : String → α) (name : String) (keys : List String) :
    get? name (keys.map fun key => (key, f key)) = if name ∈ keys then some (f name) else none := by
  induction keys with
  | nil => rfl
  | cons key keys ih =>
    rw [List.map_cons, get?_cons, ih]
    by_cases hmem : name ∈ keys
    · rw [if_pos hmem, Option.some_or, if_pos (List.mem_cons_of_mem key hmem)]
    · by_cases hkey : key = name
      · subst hkey
        rw [if_neg hmem, Option.none_or, if_pos rfl, if_pos (List.mem_cons_self ..)]
      · rw [if_neg hmem, Option.none_or, if_neg hkey, if_neg]
        exact fun h => (List.mem_cons.mp h).elim (hkey ∘ Eq.symm) hmem

/-- Sorting the keys of a table and looking each of them up gives its sorted entries. -/
theorem HandsOut.map_inByteOrder {entries : Entries α} {keys : List String}
    (h : entries.HandsOut keys) {f : String → α}
    (hf : ∀ key a, get? key entries = some a → f key = a) :
    (Text.inByteOrder keys).map (fun key => (key, f key)) = sorted entries := by
  refine Ascending.ext ?_ (ascending_sorted entries) fun key => ?_
  · exact List.pairwise_map.mpr (Text.pairwise_inByteOrder h.nodup)
  · have hset : key ∈ Text.inByteOrder keys ↔ ∃ a, get? key entries = some a :=
      Text.mem_inByteOrder.trans (h.mem_iff key)
    rw [get?_map_key, get?_sorted]
    by_cases hmem : key ∈ Text.inByteOrder keys
    · obtain ⟨a, hget⟩ := hset.mp hmem
      rw [if_pos hmem, hget, hf key a hget]
    · rw [if_neg hmem]
      exact (Option.eq_none_iff_forall_ne_some.mpr fun a hget => hmem (hset.mpr ⟨a, hget⟩)).symm

end Entries

namespace Value

open Entries

variable {v v' : Value} {entries entries' : Entries Value}

/-- What a value may be printed as. Each map in it hands out its keys in some order; they are sorted
by their bytes, and what is set under each of them is printed after it. -/
inductive Prints : Value → String → Prop
  | scalar {v : Value} : v.isScalar = true → Prints v v.text
  | host (ref : HostRef) : Prints (.host ref) ("<" ++ ref.typeName ++ ">")
  | map (id : Identity) {entries : Entries Value} {keys : List String} {texts : String → String} :
      entries.HandsOut keys → (∀ key v, get? key entries = some v → Prints v (texts key)) →
      Prints (.map id entries)
        (inBraces ((Text.inByteOrder keys).map fun key => (key, texts key)))

/-- The same scalar or host object, or maps with the same keys and alike values under each. -/
inductive Alike : Value → Value → Prop
  | scalar {v : Value} : v.isScalar = true → Alike v v
  | host (ref : HostRef) : Alike (.host ref) (.host ref)
  | map (id id' : Identity) {entries entries' : Entries Value} :
      (∀ key, (get? key entries).isSome = (get? key entries').isSome) →
      (∀ key v v', get? key entries = some v → get? key entries' = some v' → Alike v v') →
      Alike (.map id entries) (.map id' entries')

/-- Alike values were set last under each key, or none in both. -/
def SetAlike (entries entries' : Entries Value) : Prop :=
  ∀ key, Option.Rel Alike (under key entries).getLast? (under key entries').getLast?

theorem get?_entryTexts (key : String) (entries : Entries Value) :
    get? key (entryTexts entries) = (get? key entries).map text := by
  induction entries with
  | nil => rfl
  | cons pair rest ih =>
    obtain ⟨k, v⟩ := pair
    rw [entryTexts, get?_cons, get?_cons, ih]
    cases get? key rest with
    | some w => rfl
    | none => by_cases hk : k = key <;> simp [hk]

theorem handsOut_entryTexts {keys : List String} (h : entries.HandsOut keys) :
    (entryTexts entries).HandsOut keys where
  nodup := h.nodup
  mem_iff key := by rw [h.mem_iff, get?_entryTexts]; simp

/-- A map is printed as the sorted texts of what is set in it, in whatever order it hands out its
keys. -/
theorem inBraces_inByteOrder (id : Identity) {keys : List String} {texts : String → String}
    (h : entries.HandsOut keys) (htexts : ∀ key v, get? key entries = some v → texts key = v.text) :
    inBraces ((Text.inByteOrder keys).map fun key => (key, texts key)) =
      (Value.map id entries).text := by
  rw [text, (handsOut_entryTexts h).map_inByteOrder]
  intro key shown hget
  rw [get?_entryTexts] at hget
  obtain ⟨v, hv, rfl⟩ := Option.map_eq_some_iff.mp hget
  exact htexts key v hv

theorem Prints.eq_text {shown : String} (h : Prints v shown) : shown = v.text := by
  induction h with
  | scalar _ => rfl
  | host ref => rfl
  | map id hkeys _ ih => exact inBraces_inByteOrder id hkeys ih

theorem prints_text : (v : Value) → Prints v v.text
  | .nil | .boolean _ | .integer _ | .unsigned _ | .number _ | .string _ => .scalar rfl
  | .host ref => .host ref
  | .map id entries => by
    obtain ⟨keys, hkeys⟩ := exists_handsOut entries
    let texts : String → String := fun key => ((get? key entries).map text).getD ""
    have htexts : ∀ key v, get? key entries = some v → texts key = v.text := by
      intro key v hget
      simp only [texts, hget, Option.map_some, Option.getD_some]
    rw [← inBraces_inByteOrder id hkeys htexts]
    refine .map id hkeys fun key v hget => ?_
    have hmem : (key, v) ∈ entries := mem_of_get? hget
    rw [htexts key v hget]
    exact prints_text v
termination_by v => sizeOf v
decreasing_by
  have hlt := List.sizeOf_lt_of_mem hmem
  simp only [Value.map.sizeOf_spec, Prod.mk.sizeOf_spec] at hlt ⊢
  omega

theorem prints_iff {shown : String} : Prints v shown ↔ shown = v.text :=
  ⟨Prints.eq_text, fun h => h ▸ prints_text v⟩

theorem Alike.text_eq (h : Alike v v') : v.text = v'.text := by
  induction h with
  | scalar _ => rfl
  | host ref => rfl
  | @map id id' entries entries' hkeys _ ih =>
    have hget : ∀ key, get? key (entryTexts entries) = get? key (entryTexts entries') := by
      intro key
      rw [get?_entryTexts, get?_entryTexts]
      have hset := hkeys key
      cases hleft : get? key entries with
      | none =>
        have hright : get? key entries' = none := by simpa [hleft] using hset.symm
        rw [hright]
      | some v =>
        obtain ⟨v', hright⟩ : ∃ v', get? key entries' = some v' :=
          Option.isSome_iff_exists.mp (by rw [← hset, hleft]; rfl)
        rw [hright, Option.map_some, Option.map_some, ih key v v' hleft hright]
    rw [text, text, sorted_congr hget]

theorem SetAlike.alike (h : SetAlike entries entries') (id id' : Identity) :
    Alike (.map id entries) (.map id' entries') := by
  have hrel : ∀ key, Option.Rel Alike (get? key entries) (get? key entries') := by
    intro key
    rw [get?_eq_getLast?, get?_eq_getLast?]
    exact h key
  refine .map id id' (fun key => ?_) fun key v v' hv hv' => ?_
  · have hkey := hrel key
    generalize get? key entries = set at hkey ⊢
    generalize get? key entries' = set' at hkey ⊢
    cases hkey <;> rfl
  · have hpair := hrel key
    rw [hv, hv'] at hpair
    cases hpair with
    | some halike => exact halike

/-- The value is printed as these entries in braces, whichever orders its tables hand out their
keys in, and messages that name it show the same. -/
structure ShownAs (v : Value) (shown : Entries String) : Prop where
  text_eq : v.text = inBraces shown
  prints_iff : ∀ text, Prints v text ↔ text = inBraces shown
  notBoolean : v.toTruth.mapError EvalError.message =
    .error ("Cannot cast " ++ inBraces shown ++ " (map) to bool")
  notNumeric : v.toNumber.mapError EvalError.message =
    .error ("Cannot cast " ++ inBraces shown ++ " (map) to numeric")

theorem shownAs_of_text_eq {id : Identity} {shown : Entries String}
    (h : (Value.map id entries).text = inBraces shown) : (Value.map id entries).ShownAs shown where
  text_eq := h
  prints_iff text := by rw [Value.prints_iff, h]
  notBoolean := by
    have hkind : " (" ++ ("map" ++ ") to bool") = " (map) to bool" := rfl
    rw [← h, ← hkind, ← String.append_assoc, ← String.append_assoc]
    rfl
  notNumeric := by
    have hkind : " (" ++ ("map" ++ ") to numeric") = " (map) to numeric" := rfl
    rw [← h, ← hkind, ← String.append_assoc, ← String.append_assoc]
    rfl

/-- Maps whose contents are alike are shown as the same entries, with their keys ascending by bytes.
Under each key stands the text of what was set there last, and nothing else. -/
theorem exists_shown_of_setAlike (h : SetAlike entries entries') (id id' : Identity) :
    ∃ shown : Entries String,
      shown.Pairwise (fun p q => Text.bytes p.1 < Text.bytes q.1) ∧
      (∀ key, under key shown = ((under key entries).getLast?.map text).toList) ∧
      (Value.map id entries).ShownAs shown ∧ (Value.map id' entries').ShownAs shown := by
  have hascending := ascending_sorted (entryTexts entries)
  have htext : (Value.map id entries).text = inBraces (entryTexts entries).sorted := by rw [text]
  refine ⟨(entryTexts entries).sorted, ?_, fun key => ?_, shownAs_of_text_eq htext,
    shownAs_of_text_eq ((h.alike id id').text_eq ▸ htext)⟩
  · exact hascending.imp fun hlt => Text.bytes_strictMono hlt
  · rw [hascending.under_eq, get?_sorted, get?_entryTexts, get?_eq_getLast?]

/-- A table that holds another one. -/
def filled : Entries Value :=
  [("b", .nil), ("a", .map ⟨0, ["a"]⟩ [("x", .integer 1), ("y", .nil)])]

/-- The same contents in other tables, set in another order and some of it twice. -/
def refilled : Entries Value :=
  [("a", .map ⟨1, ["a"]⟩ [("y", .nil), ("x", .nil), ("x", .integer 1)]), ("b", .boolean true),
    ("b", .nil)]

theorem exists_shown_of_setAlike_refilled :
    SetAlike filled refilled ∧
      (Value.map ⟨0, []⟩ filled).text = "\x7ba: \x7bx: 1, y: nil\x7d, b: nil\x7d" ∧
      (Value.map ⟨1, []⟩ refilled).text = (Value.map ⟨0, []⟩ filled).text := by
  have hinner : SetAlike [("x", .integer 1), ("y", .nil)]
      [("y", .nil), ("x", .nil), ("x", .integer 1)] := by
    intro key
    by_cases hx : "x" = key
    · subst hx
      exact .some (.scalar rfl)
    · by_cases hy : "y" = key
      · subst hy
        exact .some (.scalar rfl)
      · simp only [under_cons, hx, hy, if_false]
        exact .none
  have h : SetAlike filled refilled := by
    intro key
    by_cases ha : "a" = key
    · subst ha
      exact .some (hinner.alike _ _)
    · by_cases hb : "b" = key
      · subst hb
        exact .some (.scalar rfl)
      · simp only [filled, refilled, under_cons, ha, hb, if_false]
        exact .none
  obtain ⟨shown, -, -, hleft, hright⟩ := exists_shown_of_setAlike h ⟨0, []⟩ ⟨1, []⟩
  exact ⟨h, by cbv, hright.text_eq.trans hleft.text_eq.symm⟩

end Value
end PredicateLang
