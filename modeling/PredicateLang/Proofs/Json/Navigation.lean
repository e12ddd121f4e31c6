import PredicateLang.Host.Resolve
import PredicateLang.Json
import PredicateLang.Proofs.Value.Entries

/-!
# Navigating documents

Names lead through a JSON document: through an object by its keys, and through an array
by `length` and by the indices of its items, written in decimal without a sign or
leading zeros. Resolving the same names one after another in the value that the document
becomes leads to the value of what is found, or fails at the same name for the same
reason. So a document can be used as a context without knowing how arrays are stored.
-/

namespace PredicateLang

/-- Takes names one after another. A failure comes with the names that were left, the one at which
it occurred included. -/
def follow {m : Type → Type} [Monad m] {ε α : Type} (step : α → String → m (Except ε α)) :
    List String → α → m (Except (ε × List String) α)
  | [], a => pure (.ok a)
  | name :: names, a => do
    match ← step a name with
    | .ok b => follow step names b
    | .error e => pure (.error (e, name :: names))

namespace Json

/-- Whether the characters are the decimal digits of a number, without leading zeros. -/
def isNumeral (digits : List Char) : Bool :=
  !digits.isEmpty && digits.all Char.isDigit && (digits.head? != some '0' || digits.length == 1)

/-- The number that a name writes, if it writes one in the canonical way. -/
def index? (name : String) : Option Nat :=
  if isNumeral name.toList then some (Nat.ofDigitChars 10 name.toList 0) else none

/-- What a name leads to in a document. -/
def navigate (name : String) : Json → Except EvalError Json
  | .object members => .ok ((Entries.get? name members).getD .null)
  | .array items =>
    if name = "length" then .ok (.number (Float.ofNat items.length))
    else .ok (((index? name).bind (items[·]?)).getD .null)
  | .null => .error (.noSuchMember name "nil")
  | .boolean _ => .error (.noSuchMember name "bool")
  | .number _ => .error (.noSuchMember name "float")
  | .string _ => .error (.noSuchMember name "string")

theorem eq_zero_of_head?_toDigits {n : Nat} (h : (Nat.toDigits 10 n).head? = some '0') : n = 0 := by
  induction n using Nat.strongRecOn with
  | ind n ih =>
    by_cases hn : n < 10
    · rw [Nat.toDigits_of_lt_base hn] at h
      exact Nat.digitChar_eq_zero.mp (Option.some.inj h)
    · have hne : Nat.toDigits 10 (n / 10) ≠ [] := List.length_pos_iff.mp Nat.length_toDigits_pos
      rw [Nat.toDigits_of_base_le (by decide) (by omega), List.head?_append,
        List.head?_eq_some_head hne, Option.some_or, ← List.head?_eq_some_head hne] at h
      have hzero := ih (n / 10) (by omega) h
      omega

theorem isNumeral_toDigits (n : Nat) : isNumeral (Nat.toDigits 10 n) = true := by
  have hne : Nat.toDigits 10 n ≠ [] := List.length_pos_iff.mp Nat.length_toDigits_pos
  have hdigits : (Nat.toDigits 10 n).all Char.isDigit = true :=
    List.all_eq_true.mpr fun c hc => Nat.isDigit_of_mem_toDigits (by decide) (by decide) hc
  have hzero : (Nat.toDigits 10 n).head? ≠ some '0' ∨ (Nat.toDigits 10 n).length = 1 := by
    by_cases h : (Nat.toDigits 10 n).head? = some '0'
    · obtain rfl := eq_zero_of_head?_toDigits h
      exact .inr rfl
    · exact .inl h
  simp [isNumeral, hne, hdigits, hzero]

theorem toDigits_digit {c : Char} (h : c.isDigit = true) :
    c.toNat - '0'.toNat < 10 ∧ Nat.toDigits 10 (c.toNat - '0'.toNat) = [c] := by
  have hrange := Char.isDigit_iff_toNat.mp h
  simp only [Char.reduceToNat] at *
  have hlt : c.toNat - 48 < 10 := by omega
  refine ⟨hlt, ?_⟩
  rw [Nat.toDigits_of_lt_base hlt, List.singleton_inj, ← Char.toNat_inj,
    Nat.toNat_digitChar_of_lt_ten hlt]
  omega

/-- Digits that are read after a number greater than zero follow its own digits. -/
theorem toDigits_ofDigitChars {digits : List Char} (h : ∀ c ∈ digits, c.isDigit = true) {n : Nat}
    (hn : 0 < n) :
    Nat.toDigits 10 (Nat.ofDigitChars 10 digits n) = Nat.toDigits 10 n ++ digits := by
  induction digits generalizing n with
  | nil => exact (List.append_nil _).symm
  | cons c cs ih =>
    obtain ⟨hlt, hc⟩ := toDigits_digit (h c (List.mem_cons_self ..))
    calc Nat.toDigits 10 (Nat.ofDigitChars 10 (c :: cs) n)
        = Nat.toDigits 10 (Nat.ofDigitChars 10 cs (10 * n + (c.toNat - '0'.toNat))) := by
          rw [Nat.ofDigitChars_cons]
      _ = Nat.toDigits 10 (10 * n + (c.toNat - '0'.toNat)) ++ cs :=
          ih (fun c hc => h c (List.mem_cons_of_mem _ hc)) (by omega)
      _ = Nat.toDigits 10 n ++ c :: cs := by
          rw [← Nat.toDigits_append_toDigits (by decide) hn hlt, hc, List.append_assoc]
          rfl

theorem toDigits_of_isNumeral {digits : List Char} (h : isNumeral digits = true) :
    Nat.toDigits 10 (Nat.ofDigitChars 10 digits 0) = digits := by
  simp only [isNumeral, Bool.and_eq_true, Bool.or_eq_true, List.all_eq_true, beq_iff_eq] at h
  obtain ⟨⟨hne, hdigits⟩, hzero⟩ := h
  cases digits with
  | nil => cases hne
  | cons c cs =>
    obtain ⟨-, hc⟩ := toDigits_digit (hdigits c (List.mem_cons_self ..))
    rw [Nat.ofDigitChars_cons, Nat.mul_zero, Nat.zero_add]
    rcases hzero with hzero | hone
    · have hpos : 0 < c.toNat - '0'.toNat := by
        refine Nat.pos_of_ne_zero fun hnot => ?_
        rw [hnot] at hc
        cases hc
        cases hzero
      rw [toDigits_ofDigitChars (fun d hd => hdigits d (List.mem_cons_of_mem _ hd)) hpos, hc]
      rfl
    · obtain rfl : cs = [] := List.length_eq_zero_iff.mp (Nat.succ.inj hone)
      exact hc

/-- The canonical decimal of a number is its text. -/
theorem index?_eq_some_iff {name : String} {n : Nat} : index? name = some n ↔ name = toString n := by
  rw [index?, Nat.toString_eq_repr]
  constructor
  · intro h
    split at h
    · rename_i hnumeral
      cases h
      rw [← String.toList_inj, Nat.toList_repr, toDigits_of_isNumeral hnumeral]
    · cases h
  · rintro rfl
    rw [Nat.toList_repr, if_pos (isNumeral_toDigits n), Nat.ofDigitChars_ten_toDigits]

theorem get?_memberEntries (id : Identity) (members : List (String × Json)) (name : String) :
    Entries.get? name (memberEntries id members) =
      (Entries.get? name members).map (toValue (id.child name)) := by
  induction members with
  | nil => rfl
  | cons member rest ih =>
    obtain ⟨key, j⟩ := member
    rw [memberEntries, Entries.get?_cons, Entries.get?_cons, ih, Option.map_or]
    by_cases hkey : key = name
    · rw [if_pos hkey, if_pos hkey, hkey, Option.map_some]
    · rw [if_neg hkey, if_neg hkey, Option.map_none]

/-- The items from the index `n` on are found under their indices and nowhere else. -/
theorem get?_itemEntries (id : Identity) (n : Nat) (items : List Json) (name : String) :
    Entries.get? name (itemEntries id n items) =
      ((index? name).bind fun i => if n ≤ i then items[i - n]? else none).map
        (toValue (id.child name)) := by
  induction items generalizing n with
  | nil => cases index? name <;> simp [itemEntries, Entries.get?]
  | cons item rest ih =>
    have hkey : toString n = name ↔ index? name = some n := by
      rw [index?_eq_some_iff, eq_comm]
    simp only [itemEntries, Entries.get?, ih, hkey]
    cases hindex : index? name with
    | none => simp
    | some i =>
      simp only [Option.bind_some, Option.some.injEq]
      by_cases hin : i = n
      · have hname := index?_eq_some_iff.mp hindex
        have hnot : ¬ i + 1 ≤ i := by omega
        subst hin hname
        simp [hnot]
      · by_cases hlt : n < i
        · obtain ⟨k, hk⟩ : ∃ k, i - n = k + 1 := ⟨i - n - 1, by omega⟩
          have hrest : i - (n + 1) = k := by omega
          have hle : n ≤ i := by omega
          have hnext : n + 1 ≤ i := hlt
          simp only [hk, hrest, hle, hnext, if_true, List.getElem?_cons_succ]
          cases rest[k]? <;> simp [hin]
        · have hle : ¬ n ≤ i := by omega
          have hnext : ¬ n + 1 ≤ i := by omega
          simp [hin, hle, hnext]

/-- One name leads to the value of what it leads to in the document. -/
theorem resolve_toValue {σ : Type} (world : World σ) (id : Identity) (j : Json) (name : String)
    (state : σ) :
    resolve world (j.toValue id) name state =
      ((j.navigate name).map (toValue (id.child name)), state) := by
  cases j with
  | array items =>
    simp only [toValue, resolve, navigate, Entries.get?, get?_itemEntries, Nat.zero_le, if_true,
      Nat.sub_zero]
    by_cases hname : name = "length"
    · subst hname
      rfl
    · rw [if_neg (Ne.symm hname), if_neg hname]
      cases (index? name).bind (items[·]?) <;> rfl
  | object members =>
    simp only [toValue, resolve, navigate, get?_memberEntries]
    cases Entries.get? name members <;> rfl
  | _ => rfl

/-- What several names lead to in a document. -/
def navigateAll (names : List String) (j : Json) : Except (EvalError × List String) Json :=
  Id.run (follow (fun j name => pure (j.navigate name)) names j)

/-- Resolving names one after another in the value of a document leads to the value of what the
names lead to in the document, and fails where they lead nowhere, at the same name and with the
same error. Neither a host nor its state is involved. -/
theorem follow_resolve_toValue {σ : Type} (world : World σ) (id : Identity) (j : Json)
    (names : List String) (state : σ) :
    follow (resolve world) names (j.toValue id) state =
      ((j.navigateAll names).map (toValue (names.foldl Identity.child id)), state) := by
  induction names generalizing id j with
  | nil => rfl
  | cons name names ih =>
    have hresolve := resolve_toValue world id j name state
    simp only [follow, bind, StateT.bind, hresolve, navigateAll]
    cases hnavigate : j.navigate name with
    | error e => rfl
    | ok found => exact ih (id.child name) found

end Json
end PredicateLang
