import PredicateLang.Proofs.Token.Facing
import PredicateLang.Proofs.Token.Numeral

/-!
# Numbers exactly

A number is an optional sign and the numeral after it. The numeral alone decides on the
value, and the one character behind it on whether the number ends there: a name may not
follow. A number that denotes nothing, or goes on as a name, is malformed.
-/

namespace PredicateLang

namespace Lexeme

/-- The text is an optional sign, the numeral that leads what follows the sign, and the rest. -/
structure SignedNumeral (text sign m rest : List Char) : Prop where
  split : text = sign ++ (m ++ rest)
  sign : Numeral.IsSign sign
  leads : Numeral.Leads m (m ++ rest)

section
variable {text sign m rest : List Char}

theorem exists_signedNumeral {operandExpected : Bool} {c : Char} {cs : List Char}
    (h : startsNumber operandExpected c cs = true) :
    ∃ sign m rest, SignedNumeral (c :: cs) sign m rest := by
  obtain ⟨sign, d, ds, hsplit, hd, -⟩ := exists_splitSign h
  have hsign := isSign_splitSign (c :: cs)
  have hsource := Numeral.splitSign_append (c :: cs)
  have happend := Numeral.read_append (d :: ds)
  have hleads := Numeral.leads_read hd ds
  rw [hsplit] at hsign hsource
  refine ⟨sign, (Numeral.read (d :: ds)).text, (Numeral.read (d :: ds)).rest, ?_, hsign, ?_⟩
  · rw [happend]
    exact hsource.symm
  · rw [happend]
    exact hleads

namespace SignedNumeral

/-- The numeral alone decides on the value, and the character behind it on whether it ends there. -/
theorem number_eq (h : SignedNumeral text sign m rest) : number text =
    match (Numeral.read m).value with
    | none => malformed (.invalidNumber (String.ofList (sign ++ m))) (sign ++ m) rest
    | some x =>
      if rest.takeWhile continuesName = [] then
        ⟨.number (if sign = ['-'] then -x else x), sign ++ m, rest⟩
      else
        malformed (.invalidNumber (String.ofList (sign ++ m ++ rest.takeWhile continuesName)))
          (sign ++ m ++ rest.takeWhile continuesName) (rest.dropWhile continuesName) := by
  obtain ⟨d, ds, hm, hd⟩ := Numeral.exists_digit_of_form h.leads.form
  have hhead : ∀ c ∈ (m ++ rest).head?, c.isDigit = true := by
    rw [hm]
    rintro _ ⟨⟩
    exact hd
  cases hvalue : (Numeral.read m).value <;>
    simp only [number, h.split, splitSign_eq h.sign hhead, h.leads.read_eq, hvalue]

/-- Cutting the text off behind the numeral, or further on, leaves sign and numeral as they are. -/
theorem of_shorter (h : SignedNumeral text sign m rest) {run : List Char} (hrun : run <+: rest) :
    SignedNumeral (sign ++ m ++ run) sign m run :=
  ⟨List.append_assoc .., h.sign, h.leads.of_shorter (List.prefix_append _ _)
    ((List.prefix_append_right_inj m).mpr hrun)⟩

theorem number_of_denotes (h : SignedNumeral text sign m rest)
    (hstop : ∀ d ∈ rest.head?, continuesName d = false) {x : Float} (hx : Numeral.Denotes m x) :
    number text = ⟨.number (if sign = ['-'] then -x else x), sign ++ m, rest⟩ := by
  have hvalue := (Numeral.value_eq_some_iff h.leads.form).mpr hx
  simp only [h.number_eq, hvalue, takeWhile_eq_nil_of_stop hstop, if_true]

/-- Nothing else is read as a number. -/
theorem denotes_of_kind (h : SignedNumeral text sign m rest) {x : Float}
    (hkind : (number text).kind = .number x) :
    (∀ d ∈ rest.head?, continuesName d = false) ∧
      ∃ magnitude, Numeral.Denotes m magnitude ∧
        x = if sign = ['-'] then -magnitude else magnitude := by
  cases hvalue : (Numeral.read m).value with
  | none =>
    simp only [h.number_eq, hvalue, malformed] at hkind
    cases hkind
  | some magnitude =>
    by_cases hname : rest.takeWhile continuesName = []
    · simp only [h.number_eq, hvalue, if_pos hname] at hkind
      cases hkind
      have hmagnitude := (Numeral.value_eq_some_iff h.leads.form).mp hvalue
      exact ⟨stop_of_takeWhile_eq_nil hname, magnitude, hmagnitude, rfl⟩
    · simp only [h.number_eq, hvalue, if_neg hname, malformed] at hkind
      cases hkind

/-- A numeral that denotes nothing is malformed, as is one that a name follows, together with the
name. -/
theorem number_of_not_denotes (h : SignedNumeral text sign m rest)
    (hnot : ¬ ((∀ d ∈ rest.head?, continuesName d = false) ∧ ∃ x, Numeral.Denotes m x)) :
    ∃ run rest', rest = run ++ rest' ∧ (∀ d ∈ run, continuesName d = true) ∧
      number text = malformed (.invalidNumber (String.ofList (sign ++ m ++ run)))
        (sign ++ m ++ run) rest' := by
  cases hvalue : (Numeral.read m).value with
  | none =>
    refine ⟨[], rest, rfl, (by simp), ?_⟩
    simp only [h.number_eq, hvalue, List.append_nil]
  | some x =>
    have hx := (Numeral.value_eq_some_iff h.leads.form).mp hvalue
    have hname : rest.takeWhile continuesName ≠ [] := fun hnil =>
      hnot ⟨stop_of_takeWhile_eq_nil hnil, x, hx⟩
    refine ⟨_, _, List.takeWhile_append_dropWhile.symm, takeWhile_spec _ _, ?_⟩
    simp only [h.number_eq, hvalue, if_neg hname]

end SignedNumeral

/-- A number, malformed or not, is read alike when nothing follows it. -/
theorem number_alone {operandExpected : Bool} {c : Char} {cs : List Char}
    (hstart : startsNumber operandExpected c cs = true) :
    number (number (c :: cs)).text = { number (c :: cs) with rest := [] } := by
  obtain ⟨sign, m, rest, h⟩ := exists_signedNumeral hstart
  have hnil : [] <+: rest := List.nil_prefix
  have hname : rest.takeWhile continuesName <+: rest := List.takeWhile_prefix _
  have hshort := h.of_shorter hnil
  have hlong := h.of_shorter hname
  rw [List.append_nil] at hshort
  have hall := takeWhile_spec continuesName rest
  cases hvalue : (Numeral.read m).value with
  | none => simp only [h.number_eq, hvalue, malformed, hshort.number_eq]
  | some x =>
    by_cases hname : rest.takeWhile continuesName = []
    · simp only [h.number_eq, hvalue, if_pos hname, hshort.number_eq, List.takeWhile_nil, if_true]
    · simp only [h.number_eq, hvalue, if_neg hname, malformed, hlong.number_eq,
        List.takeWhile_eq_self_iff.mpr hall, List.dropWhile_eq_nil_iff.mpr hall]

end
end Lexeme

open Lexeme Numeral in
/-- A number starts with an optional sign and the longest numeral that is written there. The token
is a number exactly if no name follows the numeral and the numeral denotes a number, which is the
number of the token, negated after a minus; the token is the sign and the numeral. Otherwise it
is malformed, together with the name that follows, and the error is about the text of the
token. -/
theorem numbers_read {source : String} {s : Scanner} {c : Char} {cs : List Char}
    (hs : s.Faces source (c :: cs)) (hstart : startsNumber s.operandExpected c cs = true) :
    (∃ sign m rest, SignedNumeral (c :: cs) sign m rest) ∧
    ∀ sign m rest, SignedNumeral (c :: cs) sign m rest →
      (∀ x, s.Takes source (.number x) (sign ++ m) rest ↔
        (∀ d ∈ rest.head?, continuesName d = false) ∧
          ∃ magnitude, Denotes m magnitude ∧ x = if sign = ['-'] then -magnitude else magnitude) ∧
      (¬ ((∀ d ∈ rest.head?, continuesName d = false) ∧ ∃ magnitude, Denotes m magnitude) →
        ∃ run rest', rest = run ++ rest' ∧ (∀ d ∈ run, continuesName d = true) ∧
          s.Takes source (.malformed (.invalidNumber (String.ofList (sign ++ m ++ run))))
            (sign ++ m ++ run) rest') := by
  have hread : read s.operandExpected (c :: cs) = number (c :: cs) := if_pos hstart
  refine ⟨exists_signedNumeral hstart, fun sign m rest h => ⟨fun x => ⟨?_, ?_⟩, ?_⟩⟩
  · intro htakes
    have hkind := hs.takes_read.kind
    rw [htakes.kind, hread] at hkind
    exact h.denotes_of_kind hkind.symm
  · rintro ⟨hstop, magnitude, hmagnitude, rfl⟩
    exact hs.takes (hread.trans (h.number_of_denotes hstop hmagnitude))
  · intro hnot
    obtain ⟨run, rest', hrest, hrun, hnumber⟩ := h.number_of_not_denotes hnot
    exact ⟨run, rest', hrest, hrun, hs.takes (hread.trans hnumber)⟩

/-- A negative hexadecimal number, and a number that a name follows. -/
theorem numbers_read_minus :
    (Scanner.start "-0x1F)").Takes "-0x1F)" (.number (-Number.ofWord 31)) "-0x1F".toList [')'] ∧
    ∃ run rest', "abc+".toList = run ++ rest' ∧
      (Scanner.start "12abc+").Takes "12abc+"
        (.malformed (.invalidNumber (String.ofList ("12".toList ++ run)))) ("12".toList ++ run)
        rest' := by
  constructor
  · have hminus : Lexeme.SignedNumeral "-0x1F)".toList ['-'] "0x1F".toList [')'] :=
      ⟨rfl, .inr (.inr rfl), @Numeral.leads_read '0' rfl "x1F)".toList⟩
    have hdigits : Numeral.WritesHexadecimal "1F".toList "0x1F".toList :=
      .intro (.inl rfl) (List.all_eq_true.mp (by decide))
    have hdenotes := Numeral.Denotes.hexadecimal hdigits (by decide) (by decide)
    exact (((numbers_read (Scanner.faces_start "-0x1F)") rfl).2 _ _ _ hminus).1 _).mpr
      ⟨any_head?_eq_false_iff.mp (by decide), _, hdenotes, rfl⟩
  · have htwelve : Lexeme.SignedNumeral "12abc+".toList [] "12".toList "abc+".toList :=
      ⟨rfl, .inl rfl, @Numeral.leads_read '1' rfl "2abc+".toList⟩
    obtain ⟨run, rest', hrest, -, htakes⟩ :=
      ((numbers_read (Scanner.faces_start "12abc+") rfl).2 _ _ _ htwelve).2
        fun ⟨hstop, _⟩ => absurd (hstop 'a' rfl) (by decide)
    exact ⟨run, rest', hrest, htakes⟩

end PredicateLang
