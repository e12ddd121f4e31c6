import PredicateLang.Proofs.Token.Stop
import PredicateLang.Token.Scanner

/-!
# Which token a text starts with

The first character of a text decides by which rule it is read, a sign together with
the character after it. Each rule has its own kinds of tokens and of errors, so the
kind of a token tells the rule in turn.
-/

namespace PredicateLang

/-- Whether the token is a name, a reserved word or a UUID. -/
def TokenKind.isWord : TokenKind → Bool
  | .boolean _ | .nil | .identifier _ | .uuid _ => true
  | _ => false

theorem TokenKind.isFinal_eq_false {kind : TokenKind} (hend : kind ≠ .endOfInput)
    (hwell : ∀ e, kind ≠ .malformed e) : kind.isFinal = false := by
  cases kind with
  | endOfInput => exact absurd rfl hend
  | malformed e => exact absurd rfl (hwell e)
  | _ => rfl

namespace Lexeme

/-- What starts as a number is a number, or a malformed one. -/
theorem number_kind (cs : List Char) : (∃ x, (number cs).kind = .number x) ∨
    ∃ text, (number cs).kind = .malformed (.invalidNumber text) := by
  simp only [number]
  split
  · exact .inr ⟨_, rfl⟩
  · split
    · exact .inl ⟨_, rfl⟩
    · exact .inr ⟨_, rfl⟩

theorem quotation_kind (cs : List Char) : (∃ content, (quotation cs).kind = .string content) ∨
    ∃ e, (quotation cs).kind = .malformed e := by
  simp only [quotation]
  split
  · exact .inl ⟨_, rfl⟩
  · exact .inr ⟨_, rfl⟩

/-- A word is a reserved one or a name. -/
theorem wordKind_cases (word : List Char) :
    (∃ b, wordKind word = .boolean b) ∨ wordKind word = .nil ∨
      wordKind word = .identifier (String.ofList word) := by
  unfold wordKind
  split
  · exact .inl ⟨_, rfl⟩
  · split
    · exact .inl ⟨_, rfl⟩
    · split
      · exact .inr (.inl rfl)
      · exact .inr (.inr rfl)

theorem uuid_kind (opening cs : List Char) :
    (∃ digits, (uuid opening cs).kind = .uuid digits) ∨
      ∃ text, (uuid opening cs).kind = .malformed (.invalidUuid text) := by
  simp only [uuid]
  split
  · exact .inr ⟨_, rfl⟩
  · split
    · exact .inl ⟨_, rfl⟩
    · exact .inr ⟨_, rfl⟩

theorem word_kind (cs : List Char) :
    (∃ b, (word cs).kind = .boolean b) ∨ (word cs).kind = .nil ∨
      (∃ name, (word cs).kind = .identifier name) ∨ (∃ digits, (word cs).kind = .uuid digits) ∨
      ∃ text, (word cs).kind = .malformed (.invalidUuid text) := by
  simp only [word]
  split
  · exact .inr (.inr (.inr (uuid_kind _ _)))
  · exact (wordKind_cases _).imp id (.imp id fun h => .inl ⟨_, h⟩)

theorem symbol_kind (c : Char) (cs : List Char) : (∃ s, (symbol c cs).kind = .symbol s) ∨
    (symbol c cs).kind = .malformed (.unexpectedCharacter c) := by
  unfold symbol
  split
  · exact .inl ⟨_, rfl⟩
  · exact .inr rfl

/-- The four rules, and what a text that is read by each of them starts with. -/
theorem read_cases (operandExpected : Bool) (c : Char) (cs : List Char) :
    (startsNumber operandExpected c cs = true ∧
      read operandExpected (c :: cs) = number (c :: cs)) ∨
    (c = '"' ∧ read operandExpected (c :: cs) = quotation cs) ∨
    (startsName c = true ∧ read operandExpected (c :: cs) = word (c :: cs)) ∨
    (startsNumber operandExpected c cs = false ∧ c ≠ '"' ∧ startsName c = false ∧
      read operandExpected (c :: cs) = symbol c cs) := by
  by_cases hnumber : startsNumber operandExpected c cs = true
  · exact .inl ⟨hnumber, if_pos hnumber⟩
  · by_cases hquote : c = '"'
    · exact .inr (.inl ⟨hquote, by simp only [read, if_neg hnumber, if_pos hquote]⟩)
    · by_cases hname : startsName c = true
      · exact .inr (.inr (.inl ⟨hname, by
          simp only [read, if_neg hnumber, if_neg hquote, if_pos hname]⟩))
      · exact .inr (.inr (.inr ⟨Bool.eq_false_iff.mpr hnumber, hquote,
          Bool.eq_false_iff.mpr hname, by
            simp only [read, if_neg hnumber, if_neg hquote, if_neg hname]⟩))

theorem read_quote (operandExpected : Bool) (cs : List Char) :
    read operandExpected ('"' :: cs) = quotation cs := by
  cases operandExpected <;> rfl

/-- A name is one wherever it starts. -/
theorem read_name {c : Char} (h : startsName c = true) (expected : Bool) (cs : List Char) :
    read expected (c :: cs) = word (c :: cs) := by
  have hdigit : c.isDigit = false := by
    rw [← Bool.not_eq_true, isDigit_iff]
    simp only [startsName, Bool.or_eq_true, isAlpha_iff, beq_iff_eq] at h
    rcases h with h | rfl
    · omega
    · decide
  have hne : ∀ d, startsName d = false → c ≠ d := by
    rintro d hd rfl
    rw [h] at hd
    cases hd
  have hsign : (c == '+' || c == '-') = false := by
    simp [hne '+' (by decide), hne '-' (by decide)]
  have hstart : startsNumber expected c cs = false := by
    simp only [startsNumber, hdigit, hsign, Bool.and_false, Bool.false_and, Bool.or_false]
  simp only [read, hstart, h, hne '"' (by decide), Bool.false_eq_true, if_false, if_true]

/-- What is read starts with the character that its text starts with. -/
theorem ReadFrom.exists_text {c : Char} {cs : List Char} {lexeme : Lexeme}
    (h : lexeme.ReadFrom (c :: cs)) : ∃ tail, lexeme.text = c :: tail := by
  obtain ⟨d, tail, htext⟩ := List.exists_cons_of_ne_nil (h.progress (List.cons_ne_nil c cs))
  have happend := h.append
  rw [htext] at happend
  obtain ⟨rfl, -⟩ := List.cons.inj happend
  exact ⟨tail, htext⟩

section
variable {operandExpected : Bool} {cs : List Char}

/-- The end of input is found at the end of the text only. -/
theorem eq_nil_of_read (h : (read operandExpected cs).kind = .endOfInput) : cs = [] := by
  cases cs with
  | nil => rfl
  | cons c cs =>
    exfalso
    rcases read_cases operandExpected c cs with ⟨_, heq⟩ | ⟨_, heq⟩ | ⟨_, heq⟩ | ⟨_, _, _, heq⟩ <;>
      rw [heq] at h
    · rcases number_kind (c :: cs) with ⟨_, hk⟩ | ⟨_, hk⟩ <;> rw [hk] at h <;> cases h
    · rcases quotation_kind cs with ⟨_, hk⟩ | ⟨_, hk⟩ <;> rw [hk] at h <;> cases h
    · rcases word_kind (c :: cs) with ⟨_, hk⟩ | hk | ⟨_, hk⟩ | ⟨_, hk⟩ | ⟨_, hk⟩ <;>
        rw [hk] at h <;> cases h
    · rcases symbol_kind c cs with ⟨_, hk⟩ | hk <;> rw [hk] at h <;> cases h

/-- Strings start with a quote. -/
theorem read_of_string {content : String}
    (h : (read operandExpected cs).kind = .string content) :
    ∃ rest, cs = '"' :: rest ∧ read operandExpected cs = quotation rest := by
  cases cs with
  | nil => cases h
  | cons c cs =>
    rcases read_cases operandExpected c cs with ⟨_, heq⟩ | ⟨rfl, heq⟩ | ⟨_, heq⟩ | ⟨_, _, _, heq⟩
    · rcases number_kind (c :: cs) with ⟨_, hk⟩ | ⟨_, hk⟩ <;> rw [heq, hk] at h <;> cases h
    · exact ⟨cs, rfl, heq⟩
    · rcases word_kind (c :: cs) with ⟨_, hk⟩ | hk | ⟨_, hk⟩ | ⟨_, hk⟩ | ⟨_, hk⟩ <;>
        rw [heq, hk] at h <;> cases h
    · rcases symbol_kind c cs with ⟨_, hk⟩ | hk <;> rw [heq, hk] at h <;> cases h

/-- Names, reserved words and UUIDs start with a letter or an underscore. -/
theorem read_of_isWord (h : (read operandExpected cs).kind.isWord = true) :
    ∃ c rest, cs = c :: rest ∧ startsName c = true ∧ read operandExpected cs = word cs := by
  cases cs with
  | nil => cases h
  | cons c cs =>
    rcases read_cases operandExpected c cs with ⟨_, heq⟩ | ⟨rfl, heq⟩ | ⟨hc, heq⟩ | ⟨_, _, _, heq⟩
    · rcases number_kind (c :: cs) with ⟨_, hk⟩ | ⟨_, hk⟩ <;> rw [heq, hk] at h <;> cases h
    · rcases quotation_kind cs with ⟨_, hk⟩ | ⟨_, hk⟩ <;> rw [heq, hk] at h <;> cases h
    · exact ⟨c, cs, rfl, hc, heq⟩
    · rcases symbol_kind c cs with ⟨_, hk⟩ | hk <;> rw [heq, hk] at h <;> cases h

end

end Lexeme
end PredicateLang
