import PredicateLang.Proofs.Token.Facing

/-!
# String literals as a code

The text after an opening quote is a spelling of some characters, and then either the
closing quote or a fault. The fault is the end of the text, an unknown escape, or a code
point that stands for no character. Which of them it is, and where it is, decides the
token; the faults are listed here apart from the reader.
-/

namespace PredicateLang

namespace Escape

/-- The digits are too few, since what follows is no digit, or they denote a surrogate or a
number beyond the last code point. -/
inductive NoCharacter (count : Nat) (digits rest : List Char) : Prop
  | tooFew : digits.length < count → (∀ c ∈ rest.head?, Number.isHexDigit c = false) →
      NoCharacter count digits rest
  | surrogate : digits.length = count → 0xD800 ≤ Number.ofDigits 16 digits →
      Number.ofDigits 16 digits ≤ 0xDFFF → NoCharacter count digits rest
  | beyond : digits.length = count → 0x10FFFF < Number.ofDigits 16 digits →
      NoCharacter count digits rest

end Escape

/-- What is wrong right after some spelled characters: the error, how the fault is written, and
what follows it. -/
inductive Quotation.Fault : ScanError → List Char → List Char → Prop
  | ended : Fault .unterminatedString [] []
  | endedInEscape : Fault .unterminatedString ['\\'] []
  | letter {c rest} : c ∉ ['t', 'n', '"', '\\', 'u', 'U'] →
      Fault (.invalidEscape c) ['\\', c] rest
  | short {digits rest} : (∀ d ∈ digits, Number.isHexDigit d = true) →
      Escape.NoCharacter 4 digits rest →
      Fault (.invalidUnicodeEscape (String.ofList digits)) ('\\' :: 'u' :: digits) rest
  | long {digits rest} : (∀ d ∈ digits, Number.isHexDigit d = true) →
      Escape.NoCharacter 8 digits rest →
      Fault (.invalidUnicodeEscape (String.ofList digits)) ('\\' :: 'U' :: digits) rest

namespace Escape

theorem scalar?_eq_none_iff {n : Nat} :
    scalar? n = none ↔ 0xD800 ≤ n ∧ n ≤ 0xDFFF ∨ 0x10FFFF < n := by
  unfold scalar?
  simp only [Nat.isValidChar]
  split
  · simp only [reduceCtorEq, false_iff]
    omega
  · simp only [true_iff]
    omega

section
variable {count : Nat} {digits rest : List Char}

/-- The run of at most `count` digits. -/
theorem takeWhile_take_append (hdigits : ∀ d ∈ digits, Number.isHexDigit d = true)
    (hle : digits.length ≤ count)
    (hstop : digits.length < count → ∀ c ∈ rest.head?, Number.isHexDigit c = false) :
    ((digits ++ rest).take count).takeWhile Number.isHexDigit = digits := by
  rw [List.take_append, List.take_of_length_le hle]
  apply takeWhile_append_stop hdigits
  intro c hc
  by_cases hlt : digits.length < count
  · refine hstop hlt c ?_
    rw [List.head?_take, if_neg (by omega)] at hc
    exact hc
  · rw [Nat.sub_eq_zero_of_le (by omega), List.take_zero] at hc
    cases hc

theorem NoCharacter.length_le (h : NoCharacter count digits rest) : digits.length ≤ count := by
  cases h <;> omega

theorem codePoint_of_noCharacter (hdigits : ∀ d ∈ digits, Number.isHexDigit d = true)
    (h : NoCharacter count digits rest) : codePoint count (digits ++ rest) =
      ⟨.error (.invalidUnicodeEscape (String.ofList digits)), digits, rest⟩ := by
  have hrun : ((digits ++ rest).take count).takeWhile Number.isHexDigit = digits := by
    apply takeWhile_take_append hdigits h.length_le
    intro hlt
    cases h with
    | tooFew _ hstop => exact hstop
    | surrogate hlength | beyond hlength => omega
  have hnone : (if digits.length = count then scalar? (Number.ofDigits 16 digits) else none) =
      none := by
    cases h with
    | tooFew hlt => rw [if_neg (by omega)]
    | surrogate hlength hlow hhigh =>
      rw [if_pos hlength, scalar?_eq_none_iff]
      exact .inl ⟨hlow, hhigh⟩
    | beyond hlength hhigh =>
      rw [if_pos hlength, scalar?_eq_none_iff]
      exact .inr hhigh
  simp only [codePoint, hrun, hnone, Option.elim_none, List.drop_left]

theorem noCharacter_of_codePoint {cs : List Char} {e : ScanError}
    (h : (codePoint count cs).meaning = .error e) :
    e = .invalidUnicodeEscape (String.ofList (codePoint count cs).text) ∧
      (∀ d ∈ (codePoint count cs).text, Number.isHexDigit d = true) ∧
      NoCharacter count (codePoint count cs).text (codePoint count cs).rest := by
  have happend := codePoint_append count cs
  simp only [codePoint] at h happend ⊢
  generalize hrun : (cs.take count).takeWhile Number.isHexDigit = digits at h happend ⊢
  have hdigits : ∀ d ∈ digits, Number.isHexDigit d = true := hrun ▸ takeWhile_spec _ _
  have hle : digits.length ≤ count := by
    have hprefix : (cs.take count).takeWhile Number.isHexDigit <+: cs.take count :=
      List.takeWhile_prefix _
    have hlength := hprefix.length_le
    rw [hrun, List.length_take] at hlength
    omega
  by_cases hlength : digits.length = count
  · rw [if_pos hlength] at h
    cases hscalar : scalar? (Number.ofDigits 16 digits) with
    | some c =>
      rw [hscalar] at h
      cases h
    | none =>
      rw [hscalar] at h
      cases h
      refine ⟨rfl, hdigits, ?_⟩
      rcases scalar?_eq_none_iff.mp hscalar with ⟨hlow, hhigh⟩ | hhigh
      · exact .surrogate hlength hlow hhigh
      · exact .beyond hlength hhigh
  · rw [if_neg hlength] at h
    cases h
    refine ⟨rfl, hdigits, .tooFew (by omega) ?_⟩
    -- fewer digits than were looked at are all digits there are
    have hlt : digits.length < count := by omega
    intro c hc
    rw [List.head?_drop] at hc
    have hnext : (cs.take count)[digits.length]? = some c := by
      rw [List.getElem?_take_of_lt hlt]
      exact hc
    have hdrop : ((cs.take count).dropWhile Number.isHexDigit).head? = some c := by
      rw [← Numeral.drop_length_takeWhile, hrun, List.head?_drop]
      exact hnext
    exact head?_dropWhile_spec Number.isHexDigit _ c hdrop

end

section
variable {e : ScanError} {cs escape rest : List Char}

/-- A faulty escape is read as its fault. -/
theorem read_of_fault (h : Quotation.Fault e ('\\' :: escape) rest) :
    read (escape ++ rest) = ⟨.error e, escape, rest⟩ := by
  cases h with
  | endedInEscape => rfl
  | @letter c rest hletter =>
    simp only [List.mem_cons, List.not_mem_nil, or_false, not_or] at hletter
    simp only [List.cons_append, List.nil_append]
    unfold read
    split <;> simp_all
  | @short digits rest hdigits hnone =>
    change (codePoint 4 (digits ++ rest)).after 'u' = _
    rw [codePoint_of_noCharacter hdigits hnone]
    rfl
  | @long digits rest hdigits hnone =>
    change (codePoint 8 (digits ++ rest)).after 'U' = _
    rw [codePoint_of_noCharacter hdigits hnone]
    rfl

theorem fault_of_read (h : (read cs).meaning = .error e) :
    Quotation.Fault e ('\\' :: (read cs).text) (read cs).rest := by
  unfold read at h ⊢
  split at h
  · cases h
    exact .endedInEscape
  · cases h
  · cases h
  · cases h
  · cases h
  · obtain ⟨rfl, hdigits, hnone⟩ := noCharacter_of_codePoint h
    exact .short hdigits hnone
  · obtain ⟨rfl, hdigits, hnone⟩ := noCharacter_of_codePoint h
    exact .long hdigits hnone
  · cases h
    refine .letter ?_
    simp_all

end
end Escape

namespace Quotation

section
variable {e : ScanError} {content text fault rest : List Char}

theorem read_of_fault (h : Fault e fault rest) :
    read (fault ++ rest) = ⟨.error e, fault, rest⟩ := by
  have hescape : ∀ escape, fault = '\\' :: escape →
      read (fault ++ rest) = ⟨.error e, fault, rest⟩ := by
    rintro escape rfl
    rw [List.cons_append, read]
    simp only [Escape.read_of_fault h]
    rfl
  cases h with
  | ended => rw [List.append_nil, read]
  | _ => exact hescape _ rfl

theorem content_of_cons_error {q : Quotation} {c : Char} {spelling : List Char}
    (h : (q.cons c spelling).content = .error e) : q.content = .error e := by
  rw [cons] at h
  cases hq : q.content with
  | error e' =>
    rw [hq] at h
    cases h
    rfl
  | ok content =>
    rw [hq] at h
    cases h

/-- A literal that is not read as a string is spelled up to a fault. -/
theorem fault_of_read {cs : List Char} (h : (read cs).content = .error e) :
    ∃ content text fault, (read cs).text = text ++ fault ∧ SpellsAll content text ∧
      Fault e fault (read cs).rest := by
  fun_induction read cs with
  | case1 =>
    cases h
    exact ⟨[], [], [], rfl, .nil, .ended⟩
  | case2 => cases h
  | case3 cs c hescape _ ih =>
    obtain ⟨content, text, fault, htext, hspells, hfault⟩ := ih (content_of_cons_error h)
    refine ⟨_, _, fault, ?_, .cons (Escape.spells_of_read hescape) hspells, hfault⟩
    rw [cons, htext, List.append_assoc]
  | case4 cs e' hescape _ =>
    cases h
    exact ⟨[], [], _, rfl, .nil, Escape.fault_of_read hescape⟩
  | case5 c cs hquote hbackslash ih =>
    obtain ⟨content, text, fault, htext, hspells, hfault⟩ := ih (content_of_cons_error h)
    refine ⟨_, _, fault, ?_, .cons (.raw hquote hbackslash) hspells, hfault⟩
    rw [cons, htext, List.append_assoc]

/-- Every text is spelled up to a closing quote or up to a fault. -/
theorem exists_spellsAll_append (cs : List Char) : ∃ content text, SpellsAll content text ∧
    ((∃ rest, cs = text ++ '"' :: rest) ∨
      ∃ e fault rest, Fault e fault rest ∧ cs = text ++ (fault ++ rest)) := by
  have happend := read_append cs
  cases hcontent : (read cs).content with
  | ok content =>
    obtain ⟨text, htext, hspells⟩ := spellsAll_of_read hcontent
    rw [htext, List.append_assoc] at happend
    exact ⟨content, text, hspells, .inl ⟨_, happend.symm⟩⟩
  | error e =>
    obtain ⟨content, text, fault, htext, hspells, hfault⟩ := fault_of_read hcontent
    rw [htext, List.append_assoc] at happend
    exact ⟨content, text, hspells, .inr ⟨e, fault, _, hfault, happend.symm⟩⟩

end
end Quotation

namespace Lexeme

variable {operandExpected : Bool} {content text fault rest cs : List Char} {e : ScanError}

theorem quotation_of_spellsAll (h : Quotation.SpellsAll content text) (rest : List Char) :
    quotation (text ++ '"' :: rest) =
      ⟨.string (String.ofList content), '"' :: (text ++ ['"']), rest⟩ := by
  rw [quotation, Quotation.read_eq_of_spellsAll h]

theorem quotation_of_fault (h : Quotation.SpellsAll content text)
    (hfault : Quotation.Fault e fault rest) :
    quotation (text ++ (fault ++ rest)) = ⟨.malformed e, '"' :: (text ++ fault), rest⟩ := by
  rw [quotation, Quotation.read_spellsAll_append h, Quotation.read_of_fault hfault]
  rfl

/-- Only what is between quotes is read as a string. -/
theorem exists_spellsAll_of_string {content : String}
    (h : (read operandExpected cs).kind = .string content) :
    ∃ text, Quotation.SpellsAll content.toList text ∧
      (read operandExpected cs).text = '"' :: (text ++ ['"']) := by
  obtain ⟨rest, rfl, heq⟩ := read_of_string h
  rw [heq] at h ⊢
  simp only [quotation] at h ⊢
  cases hcontent : (Quotation.read rest).content with
  | error e =>
    simp only [hcontent] at h
    cases h
  | ok content' =>
    simp only [hcontent] at h
    cases h
    obtain ⟨text, htext, hspells⟩ := Quotation.spellsAll_of_read hcontent
    exact ⟨text, by rwa [String.toList_ofList], by rw [htext]⟩

end Lexeme

/-- In front of a quote, what spells a string is read as that string whatever follows it, and a
fault after spelled characters is the error. There is nothing else that can follow a quote, and
every string token covers a spelling of its string. An unterminated literal reaches to the end of
the source. -/
theorem quotations_decode (source : String) :
    (∀ (s : Scanner) (content : String) (text rest : List Char),
      s.Faces source ('"' :: (text ++ '"' :: rest)) →
      Quotation.SpellsAll content.toList text →
      s.Takes source (.string content) ('"' :: (text ++ ['"'])) rest) ∧
    (∀ t ∈ tokens source, ∀ content, t.kind = .string content →
      ∃ text, Quotation.SpellsAll content.toList text ∧
        t.span.excerpt? source = some (String.ofList ('"' :: (text ++ ['"'])))) ∧
    (∀ (s : Scanner) (content text fault rest : List Char) (e : ScanError),
      s.Faces source ('"' :: (text ++ (fault ++ rest))) →
      Quotation.SpellsAll content text → Quotation.Fault e fault rest →
      s.Takes source (.malformed e) ('"' :: (text ++ fault)) rest ∧
        (e = .unterminatedString → s.scan.1.span.stop = Source.byteSize source.toList)) ∧
    ∀ cs, ∃ content text, Quotation.SpellsAll content text ∧
      ((∃ rest, cs = text ++ '"' :: rest) ∨
        ∃ e fault rest, Quotation.Fault e fault rest ∧ cs = text ++ (fault ++ rest)) := by
  refine ⟨?_, ?_, ?_, Quotation.exists_spellsAll_append⟩
  · intro s content text rest hs hspells
    apply hs.takes
    rw [Lexeme.read_quote, Lexeme.quotation_of_spellsAll hspells, String.ofList_toList]
  · intro t ht content hkind
    obtain ⟨s, cs, hs, rfl⟩ := exists_faces_of_mem ht
    have htakes := hs.takes_read
    rw [htakes.kind] at hkind
    obtain ⟨text, hspells, htext⟩ := Lexeme.exists_spellsAll_of_string hkind
    exact ⟨text, hspells, by rw [htakes.excerpt, htext]⟩
  · intro s content text fault rest e hs hspells hfault
    have htakes : s.Takes source (.malformed e) ('"' :: (text ++ fault)) rest := by
      apply hs.takes
      rw [Lexeme.read_quote, Lexeme.quotation_of_fault hspells hfault]
    refine ⟨htakes, ?_⟩
    rintro rfl
    cases hfault with
    | ended => exact htakes.stop_eq
    | endedInEscape => exact htakes.stop_eq

/-- A code point is read as its character, and the digit after it for itself. A surrogate is no
character. -/
theorem quotations_decode_codePoint :
    ((Scanner.start "\"\\u00410\" c").Takes "\"\\u00410\" c" (.string "A0")
        "\"\\u00410\"".toList " c".toList ∧
      ∃ t ∈ tokens "\"\\u00410\" c", t.kind = .string "A0" ∧
        ∃ text, Quotation.SpellsAll "A0".toList text ∧
          t.span.excerpt? "\"\\u00410\" c" = some (String.ofList ('"' :: (text ++ ['"'])))) ∧
    (Scanner.start "\"a\\uD8000\"").Takes "\"a\\uD8000\""
      (.malformed (.invalidUnicodeEscape "D800")) "\"a\\uD800".toList "0\"".toList ∧
    (Scanner.start "\"a\\").scan.1.span.stop = Source.byteSize "\"a\\".toList := by
  have hcode : Quotation.Spells 'A' ['\\', 'u', '0', '0', '4', '1'] :=
    .short rfl (List.all_eq_true.mp (by decide)) (by decide)
  have hspells : Quotation.SpellsAll "A0".toList
      (['\\', 'u', '0', '0', '4', '1'] ++ (['0'] ++ [])) :=
    .cons hcode (.cons (.raw (by decide) (by decide)) .nil)
  have ha : Quotation.SpellsAll ['a'] (['a'] ++ []) := .cons (.raw (by decide) (by decide)) .nil
  have hsurrogate : Quotation.Fault (.invalidUnicodeEscape "D800") ['\\', 'u', 'D', '8', '0', '0']
      "0\"".toList :=
    @Quotation.Fault.short ['D', '8', '0', '0'] _ (List.all_eq_true.mp (by decide))
      (.surrogate rfl (by decide) (by decide))
  have hdecodes := quotations_decode "\"\\u00410\" c"
  have hstring := hdecodes.1 _ "A0" _ _ (Scanner.faces_start _) hspells
  have hmem : (Scanner.start "\"\\u00410\" c").scan.1 ∈ tokens "\"\\u00410\" c" :=
    Scanner.scan_mem_tokensFrom rfl
  refine ⟨⟨hstring, _, hmem, hstring.kind, hdecodes.2.1 _ hmem _ hstring.kind⟩, ?_, ?_⟩
  · exact ((quotations_decode "\"a\\uD8000\"").2.2.1 _ _ _ _ _ _ (Scanner.faces_start _) ha
      hsurrogate).1
  · exact ((quotations_decode "\"a\\").2.2.1 _ _ _ _ _ _ (Scanner.faces_start _) ha
      .endedInEscape).2 rfl

end PredicateLang
