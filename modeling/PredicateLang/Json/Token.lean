import PredicateLang.Json
import PredicateLang.Json.Number

/-!
# The tokens of JSON

Brackets, commas, colons, strings and the other scalars, with white space
between them. In a string a backslash starts an escape; code points above the
first plane are written as two surrogates; raw control characters are errors.
-/

namespace PredicateLang.Json

inductive Token where
  | openArray | closeArray | openObject | closeObject | comma | colon
  | string (s : String)
  /-- A scalar other than a string. -/
  | scalar (j : Json)

/-- The four white-space characters of JSON. -/
def isBlank (c : Char) : Bool :=
  c == ' ' || c == '\n' || c == '\t' || c == '\r'

/-- The number in exactly four hexadecimal digits, and what follows. -/
def unit? (cs : List Char) : Option (Nat × List Char) :=
  let digits := cs.take 4
  if digits.length = 4 ∧ digits.all Number.isHexDigit then
    some (Number.ofDigits 16 digits, cs.drop 4)
  else none

/-- The character that one or two four-digit escapes stand for, after the first `\u`. -/
def codePoint? (cs : List Char) : Option (Char × List Char) := do
  let (high, cs) ← unit? cs
  if high < 0xD800 ∨ 0xDFFF < high then return (Char.ofNat high, cs)
  else if 0xDC00 ≤ high then none
  else match cs with
    | '\\' :: 'u' :: cs => do
      let (low, cs) ← unit? cs
      if 0xDC00 ≤ low ∧ low ≤ 0xDFFF then
        return (Char.ofNat (0x10000 + (high - 0xD800) * 0x400 + (low - 0xDC00)), cs)
      else none
    | _ => none

/-- The character that an escape stands for, after its backslash. -/
def escape? : List Char → Option (Char × List Char)
  | '"' :: cs => some ('"', cs)
  | '\\' :: cs => some ('\\', cs)
  | '/' :: cs => some ('/', cs)
  | 'b' :: cs => some ('\x08', cs)
  | 'f' :: cs => some ('\x0c', cs)
  | 'n' :: cs => some ('\n', cs)
  | 'r' :: cs => some ('\r', cs)
  | 't' :: cs => some ('\t', cs)
  | 'u' :: cs => codePoint? cs
  | _ => none

theorem length_unit?_lt {cs rest : List Char} {n : Nat} (h : unit? cs = some (n, rest)) :
    rest.length < cs.length := by
  simp only [unit?] at h
  split at h
  · rename_i hd
    simp only [Option.some.injEq, Prod.mk.injEq] at h
    simp only [List.length_take] at hd
    rw [← h.2, List.length_drop]
    omega
  · simp at h

theorem length_codePoint?_lt {cs rest : List Char} {c : Char}
    (h : codePoint? cs = some (c, rest)) : rest.length < cs.length := by
  simp only [codePoint?, Option.bind_eq_bind, Option.bind_eq_some_iff] at h
  obtain ⟨⟨high, cs'⟩, hu, h⟩ := h
  have hlt := length_unit?_lt hu
  simp only at h
  split at h
  · simp only [Option.pure_def, Option.some.injEq, Prod.mk.injEq] at h
    rw [← h.2]
    exact hlt
  · split at h
    · simp at h
    · split at h
      · rename_i cs''
        simp only [Option.bind_eq_some_iff] at h
        obtain ⟨⟨low, cs'''⟩, hu', h⟩ := h
        have hlt' := length_unit?_lt hu'
        simp only at h
        split at h
        · simp only [Option.pure_def, Option.some.injEq, Prod.mk.injEq] at h
          rw [← h.2]
          simp only [List.length_cons] at hlt
          omega
        · simp at h
      · simp at h

theorem length_escape?_lt {cs rest : List Char} {c : Char} (h : escape? cs = some (c, rest)) :
    rest.length < cs.length := by
  unfold escape? at h
  split at h
  case h_9 =>
    exact Nat.lt_succ_of_lt (length_codePoint?_lt h)
  case h_10 => simp at h
  all_goals
    simp only [Option.some.injEq, Prod.mk.injEq] at h
    rw [← h.2]
    simp

/-- The characters of a string after its opening quote, and what follows the closing one. -/
def string? : List Char → Option (List Char × List Char)
  | [] => none
  | c :: cs =>
    if c = '"' then some ([], cs)
    else if c = '\\' then
      match _h : escape? cs with
      | some (meaning, rest) => (string? rest).map fun (content, cs) => (meaning :: content, cs)
      | none => none
    else if c.toNat < 0x20 then none
    else (string? cs).map fun (content, cs) => (c :: content, cs)
termination_by cs => cs.length
decreasing_by
  · have := length_escape?_lt _h
    simp only [List.length_cons]
    omega
  · simp

theorem length_string?_lt {cs content rest : List Char} (h : string? cs = some (content, rest)) :
    rest.length < cs.length := by
  fun_induction string? cs generalizing content rest with
  | case1 => simp at h
  | case2 => simp_all
  | case3 cs meaning cs' he _ ih =>
    obtain ⟨⟨content', rest'⟩, hs, h⟩ := Option.map_eq_some_iff.1 h
    simp only [Prod.mk.injEq] at h
    rw [← h.2]
    exact Nat.lt_succ_of_lt (Nat.lt_trans (ih hs) (length_escape?_lt he))
  | case4 => simp at h
  | case5 => simp at h
  | case6 c cs _ _ _ ih =>
    obtain ⟨⟨content', rest'⟩, hs, h⟩ := Option.map_eq_some_iff.1 h
    simp only [Prod.mk.injEq] at h
    rw [← h.2]
    exact Nat.lt_succ_of_lt (ih hs)

/-- The tokens of one character. -/
def punctuation? : Char → Option Token
  | '[' => some .openArray
  | ']' => some .closeArray
  | '\x7b' => some .openObject
  | '\x7d' => some .closeObject
  | ',' => some .comma
  | ':' => some .colon
  | _ => none

/-- The named values, and what follows. -/
def literal? : List Char → Option (Json × List Char)
  | 'n' :: 'u' :: 'l' :: 'l' :: cs => some (.null, cs)
  | 't' :: 'r' :: 'u' :: 'e' :: cs => some (.boolean true, cs)
  | 'f' :: 'a' :: 'l' :: 's' :: 'e' :: cs => some (.boolean false, cs)
  | _ => none

/-- The scalar other than a string at the front of a text, and what follows. -/
def scalar? (cs : List Char) : Option (Json × List Char) :=
  (literal? cs).or do
    let (text, rest) ← NumberText.read? cs
    let x ← text.value?
    return (.number x, rest)

/-- The token that `c` starts, and what follows it. -/
def token? (c : Char) (cs : List Char) : Option (Token × List Char) :=
  match punctuation? c with
  | some token => some (token, cs)
  | none =>
    if c = '"' then
      (string? cs).map fun (content, cs) => (.string (String.ofList content), cs)
    else
      (scalar? (c :: cs)).map fun (j, rest) => (.scalar j, rest)

theorem length_literal?_lt {cs rest : List Char} {j : Json} (h : literal? cs = some (j, rest)) :
    rest.length < cs.length := by
  unfold literal? at h
  split at h <;> simp_all <;> omega

theorem length_scalar?_lt {cs rest : List Char} {j : Json} (h : scalar? cs = some (j, rest)) :
    rest.length < cs.length := by
  obtain hl | ⟨-, hn⟩ := Option.or_eq_some_iff.1 h
  · exact length_literal?_lt hl
  · simp only [Option.bind_eq_bind, Option.bind_eq_some_iff] at hn
    obtain ⟨⟨text, rest'⟩, hr, x, -, hn⟩ := hn
    simp only [Option.pure_def, Option.some.injEq, Prod.mk.injEq] at hn
    rw [← hn.2]
    exact NumberText.length_read?_lt hr

/-- A token uses up characters. -/
theorem length_token?_lt {c : Char} {cs rest : List Char} {token : Token}
    (h : token? c cs = some (token, rest)) : rest.length < (c :: cs).length := by
  unfold token? at h
  split at h
  · simp only [Option.some.injEq, Prod.mk.injEq] at h
    rw [← h.2]
    exact Nat.lt_succ_self _
  · split at h
    · obtain ⟨⟨content, rest'⟩, hs, h⟩ := Option.map_eq_some_iff.1 h
      simp only [Prod.mk.injEq] at h
      rw [← h.2]
      exact Nat.lt_succ_of_lt (length_string?_lt hs)
    · obtain ⟨⟨j, rest'⟩, hs, h⟩ := Option.map_eq_some_iff.1 h
      simp only [Prod.mk.injEq] at h
      rw [← h.2]
      exact length_scalar?_lt hs

/-- All tokens of a text. -/
def tokens? : List Char → Option (List Token)
  | [] => some []
  | c :: cs =>
    if isBlank c then tokens? cs
    else match _h : token? c cs with
      | none => none
      | some (token, rest) => (tokens? rest).map (token :: ·)
termination_by cs => cs.length
decreasing_by
  · simp
  · exact length_token?_lt _h

end PredicateLang.Json
