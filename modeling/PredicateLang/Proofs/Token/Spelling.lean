import Mathlib.Data.List.TakeWhile
import PredicateLang.Token.Quotation

/-!
# Spellings of strings

A character has several spellings between quotes: itself, a short escape, or its
code point in four or eight hexadecimal digits. A literal is read as the string
that it spells, whatever comes after it, and nothing but a spelling is read as a
string.
-/

namespace PredicateLang

/-- The ways to write a character between quotes. -/
inductive Quotation.Spells : Char → List Char → Prop
  | raw {c} : c ≠ '"' → c ≠ '\\' → Spells c [c]
  | tab : Spells '\t' ['\\', 't']
  | lineFeed : Spells '\n' ['\\', 'n']
  | quote : Spells '"' ['\\', '"']
  | backslash : Spells '\\' ['\\', '\\']
  | short {c digits} : digits.length = 4 → (∀ d ∈ digits, Number.isHexDigit d = true) →
      Number.ofDigits 16 digits = c.toNat → Spells c ('\\' :: 'u' :: digits)
  | long {c digits} : digits.length = 8 → (∀ d ∈ digits, Number.isHexDigit d = true) →
      Number.ofDigits 16 digits = c.toNat → Spells c ('\\' :: 'U' :: digits)

/-- The characters of a string are spelled one after the other. -/
inductive Quotation.SpellsAll : List Char → List Char → Prop
  | nil : SpellsAll [] []
  | cons {c spelling cs text} : Spells c spelling → SpellsAll cs text →
      SpellsAll (c :: cs) (spelling ++ text)

namespace Escape

theorem scalar?_eq_some_iff {n : Nat} {c : Char} : scalar? n = some c ↔ n = c.toNat := by
  unfold scalar?
  constructor
  · intro h
    split at h
    · rename_i hvalid
      rw [← Option.some.inj h, Char.ofNat, dif_pos hvalid]
      rfl
    · cases h
  · rintro rfl
    rw [if_pos (show c.toNat.isValidChar from c.valid), Char.ofNat_toNat]

/-- As many digits as are wanted are read as the character that they are the code point of. -/
theorem codePoint_eq {digits : List Char} {c : Char}
    (hdigits : ∀ d ∈ digits, Number.isHexDigit d = true)
    (hvalue : Number.ofDigits 16 digits = c.toNat) (rest : List Char) :
    codePoint digits.length (digits ++ rest) = ⟨.ok c, digits, rest⟩ := by
  have hrun : digits.takeWhile Number.isHexDigit = digits :=
    List.takeWhile_eq_self_iff.mpr hdigits
  simp only [codePoint, List.take_left, hrun, if_true, List.drop_left,
    scalar?_eq_some_iff.mpr hvalue, Option.elim_some]

theorem exists_digits_of_codePoint {count : Nat} {cs : List Char} {c : Char}
    (h : (codePoint count cs).meaning = .ok c) :
    (codePoint count cs).text.length = count ∧
      (∀ d ∈ (codePoint count cs).text, Number.isHexDigit d = true) ∧
      Number.ofDigits 16 (codePoint count cs).text = c.toNat := by
  simp only [codePoint] at h ⊢
  split at h
  · rename_i hlength
    refine ⟨hlength, List.all_eq_true.mp List.all_takeWhile, ?_⟩
    cases hscalar : scalar? (Number.ofDigits 16 ((cs.take count).takeWhile Number.isHexDigit)) with
    | none =>
      rw [hscalar] at h
      cases h
    | some d =>
      rw [hscalar] at h
      cases h
      exact scalar?_eq_some_iff.mp hscalar
  · cases h

/-- An escape that spells a character is read as that character. -/
theorem read_eq_of_spells {c : Char} {escape : List Char}
    (h : Quotation.Spells c ('\\' :: escape)) (rest : List Char) :
    read (escape ++ rest) = ⟨.ok c, escape, rest⟩ := by
  cases h with
  | raw _ h => exact absurd rfl h
  | tab | lineFeed | quote | backslash => rfl
  | @short _ digits hlength hdigits hvalue =>
    change (codePoint 4 (digits ++ rest)).after 'u' = _
    rw [← hlength, codePoint_eq hdigits hvalue]
    rfl
  | @long _ digits hlength hdigits hvalue =>
    change (codePoint 8 (digits ++ rest)).after 'U' = _
    rw [← hlength, codePoint_eq hdigits hvalue]
    rfl

theorem spells_of_read {cs : List Char} {c : Char} (h : (read cs).meaning = .ok c) :
    Quotation.Spells c ('\\' :: (read cs).text) := by
  unfold read at h ⊢
  split at h
  · cases h
  · cases h
    exact .tab
  · cases h
    exact .lineFeed
  · cases h
    exact .quote
  · cases h
    exact .backslash
  · obtain ⟨hlength, hdigits, hvalue⟩ := exists_digits_of_codePoint h
    exact .short hlength hdigits hvalue
  · obtain ⟨hlength, hdigits, hvalue⟩ := exists_digits_of_codePoint h
    exact .long hlength hdigits hvalue
  · cases h

end Escape

namespace Quotation

theorem read_spells_append {c : Char} {spelling : List Char} (h : Spells c spelling)
    (cs : List Char) : read (spelling ++ cs) = (read cs).cons c spelling := by
  cases hspelling : spelling with
  | nil =>
    subst hspelling
    cases h
  | cons d escape =>
    subst hspelling
    rw [List.cons_append, read]
    by_cases hd : d = '\\'
    · subst hd
      simp only [Escape.read_eq_of_spells h]
      rfl
    · cases h with
      | raw hquote _ => 
        rw [if_neg hquote, if_neg hd]
        rfl
      | _ => exact absurd rfl hd

/-- Spelled characters are read one after the other, whatever follows them. -/
theorem read_spellsAll_append {content text : List Char} (h : SpellsAll content text)
    (cs : List Char) : read (text ++ cs) =
      ⟨(read cs).content.map (content ++ ·), text ++ (read cs).text, (read cs).rest⟩ := by
  induction h with
  | nil =>
    have hmap : (read cs).content.map ([] ++ ·) = (read cs).content := by
      cases (read cs).content <;> rfl
    rw [hmap]
    rfl
  | cons hc _ ih =>
    rw [List.append_assoc, read_spells_append hc, ih, cons, List.append_assoc]
    cases (read cs).content <;> rfl

/-- A spelled string is read up to its closing quote. -/
theorem read_eq_of_spellsAll {content text : List Char} (h : SpellsAll content text)
    (rest : List Char) : read (text ++ '"' :: rest) = ⟨.ok content, text ++ ['"'], rest⟩ := by
  have hquote : read ('"' :: rest) = ⟨.ok [], ['"'], rest⟩ := by rw [read, if_pos rfl]
  rw [read_spellsAll_append h, hquote]
  simp only [Except.map, List.append_nil]

theorem exists_content_of_cons {q : Quotation} {c : Char} {spelling content : List Char}
    (h : (q.cons c spelling).content = .ok content) :
    ∃ rest, q.content = .ok rest ∧ content = c :: rest := by
  rw [cons] at h
  cases hq : q.content with
  | error e =>
    rw [hq] at h
    cases h
  | ok rest =>
    rw [hq] at h
    cases h
    exact ⟨rest, rfl, rfl⟩

/-- What is read as a string spells it. -/
theorem spellsAll_of_read {cs content : List Char} (h : (read cs).content = .ok content) :
    ∃ text, (read cs).text = text ++ ['"'] ∧ SpellsAll content text := by
  fun_induction read cs generalizing content with
  | case1 | case4 => cases h
  | case2 cs =>
    cases h
    exact ⟨[], rfl, .nil⟩
  | case3 cs c hescape _ ih =>
    obtain ⟨rest, hrest, rfl⟩ := exists_content_of_cons h
    obtain ⟨text, htext, hspells⟩ := ih hrest
    refine ⟨_, ?_, .cons (Escape.spells_of_read hescape) hspells⟩
    rw [cons, htext, List.append_assoc]
  | case5 c cs hquote hbackslash ih =>
    obtain ⟨rest, hrest, rfl⟩ := exists_content_of_cons h
    obtain ⟨text, htext, hspells⟩ := ih hrest
    refine ⟨_, ?_, .cons (.raw hquote hbackslash) hspells⟩
    rw [cons, htext, List.append_assoc]

theorem read_stays {cs content : List Char} (h : (read cs).content = .ok content)
    (rest : List Char) : read ((read cs).text ++ rest) = { read cs with rest := rest } := by
  obtain ⟨text, htext, hspells⟩ := spellsAll_of_read h
  simp only [h, htext, List.append_assoc]
  exact read_eq_of_spellsAll hspells rest

theorem exists_spells (c : Char) : ∃ spelling, Spells c spelling := by
  by_cases hquote : c = '"'
  · exact ⟨_, hquote ▸ Spells.quote⟩
  · by_cases hbackslash : c = '\\'
    · exact ⟨_, hbackslash ▸ Spells.backslash⟩
    · exact ⟨_, .raw hquote hbackslash⟩

/-- Every string can be written between quotes. -/
theorem exists_spellsAll (content : List Char) : ∃ text, SpellsAll content text := by
  induction content with
  | nil => exact ⟨[], .nil⟩
  | cons c content ih =>
    obtain ⟨spelling, hc⟩ := exists_spells c
    obtain ⟨text, hcontent⟩ := ih
    exact ⟨spelling ++ text, .cons hc hcontent⟩

end Quotation
end PredicateLang
