import PredicateLang.Proofs.Token.Kind
import PredicateLang.Proofs.Token.Spelling
import PredicateLang.Proofs.Token.Stop

/-!
# Where a token ends

A token is read up to a character that cannot continue it. Other text may stand
after it, and the same token is read, as long as that text stops what the former
text stopped. White space does, and so does the end of the text. A token that is
malformed is no such token: it may go on with other text.
-/

namespace PredicateLang

theorem splitSign_append_right {cs : List Char} (h : cs ≠ []) (rest : List Char) :
    splitSign (cs ++ rest) = ((splitSign cs).1, (splitSign cs).2 ++ rest) := by
  cases cs with
  | nil => exact absurd rfl h
  | cons c cs =>
    rw [List.cons_append]
    unfold splitSign
    split <;> simp_all

/-- A sign is the same before every text that goes on as its number does. -/
theorem splitSign_stays {sign body rest : List Char} (hbody : body ≠ [])
    (h : splitSign (sign ++ (body ++ rest)) = (sign, body ++ rest)) (rest' : List Char) :
    splitSign (sign ++ body ++ rest') = (sign, body ++ rest') := by
  have hne : sign ++ body ≠ [] := fun hnil => hbody (List.append_eq_nil_iff.mp hnil).2
  rw [← List.append_assoc, splitSign_append_right hne] at h
  obtain ⟨hsign, hrest⟩ := Prod.mk.inj h
  rw [splitSign_append_right hne, hsign, List.append_cancel_right hrest]

namespace Numeral

open Lexeme (StopsAs continuesName)

variable {rest rest' : List Char}

theorem fractionText_stays (h : StopsAs rest' rest) {point : List Char}
    (hpoint : fractionText (point ++ rest) = point) : fractionText (point ++ rest') = point := by
  cases point with
  | nil =>
    have hnone : fraction rest = [] := by
      by_cases hf : fraction rest = []
      · exact hf
      · simp [fractionText, hf] at hpoint
    rw [List.nil_append, fractionText, h.fraction hnone]
    rfl
  | cons c digits =>
    unfold fractionText at hpoint
    split at hpoint
    · cases hpoint
    · rename_i hsome
      obtain ⟨rfl, hdigits⟩ := List.cons.inj hpoint
      have hrun : fraction ('.' :: digits ++ rest') = digits :=
        (h.takeWhile Lexeme.visible_isDigit hdigits).1
      rw [hdigits] at hsome
      rw [fractionText, hrun, if_neg hsome]

theorem exponentText_stays (h : StopsAs rest' rest)
    (hname : ∀ c ∈ rest.head?, continuesName c = false) {power : List Char}
    (hpower : exponentText (power ++ rest) = power) : exponentText (power ++ rest') = power := by
  cases power with
  | nil =>
    have hname' := h.run continuesName Lexeme.visible_continuesName hname
    cases rest' with
    | nil => rfl
    | cons mark cs =>
      have hmark := hname' mark rfl
      refine if_neg ?_
      rintro ⟨rfl | rfl, -⟩ <;> exact absurd hmark (by decide)
  | cons mark tail =>
    simp only [List.cons_append, exponentText] at hpower ⊢
    split at hpower
    · rename_i hsome
      have htail := (List.cons.inj hpower).2
      have hne : tail ≠ [] := by
        rintro rfl
        exact hsome.2 (List.append_eq_nil_iff.mp htail).2
      rw [splitSign_append_right hne] at htail hsome ⊢
      have hdigits : ((splitSign tail).2 ++ rest).takeWhile Char.isDigit = (splitSign tail).2 :=
        List.append_cancel_left (htail.trans (splitSign_append tail).symm)
      dsimp only at hsome ⊢
      rw [hdigits] at hsome
      rw [(h.takeWhile Lexeme.visible_isDigit hdigits).1, if_pos hsome, splitSign_append]
    · cases hpower

theorem hexadecimal_stays {mark : Char} {cs : List Char}
    (h : StopsAs rest' (hexadecimal mark cs).rest) :
    hexadecimal mark ((hexadecimal mark cs).text.drop 2 ++ rest') =
      { hexadecimal mark cs with rest := rest' } := by
  obtain ⟨htake, hdrop⟩ := h.takeWhile_dropWhile Lexeme.visible_isHexDigit
  simp only [hexadecimal, List.drop_succ_cons, List.drop_zero, htake, hdrop]

/-- The parts of a positional numeral before `rest`: its digits, its fraction and its exponent. -/
structure Parts (whole point power rest : List Char) : Prop where
  whole : (whole ++ (point ++ (power ++ rest))).takeWhile Char.isDigit = whole
  point : fractionText (point ++ (power ++ rest)) = point
  power : exponentText (power ++ rest) = power

/-- The value of a positional numeral with these parts. -/
def partsValue (whole point power : List Char) : Option Float :=
  if point = [] ∧ power = [] ∧ isOctal whole then octal? (whole.drop 1)
  else some (Number.Decimal.ofParts whole (point.drop 1) (exponent power)).toFloat

section
variable {whole point power : List Char}

theorem Parts.positional_eq (h : Parts whole point power rest) :
    positional (whole ++ (point ++ (power ++ rest))) =
      ⟨partsValue whole point power, whole ++ point ++ power, rest⟩ := by
  obtain ⟨hdigits, hstop⟩ := stop_of_takeWhile_append h.whole
  simp only [positional, h.whole, dropWhile_append_stop hdigits hstop, h.point, List.drop_left,
    h.power, partsValue]

theorem exists_parts (cs : List Char) :
    ∃ whole point power rest, cs = whole ++ (point ++ (power ++ rest)) ∧
      Parts whole point power rest := by
  let afterWhole := cs.dropWhile Char.isDigit
  let afterPoint := afterWhole.drop (fractionText afterWhole).length
  have hpower := exponentText_append_drop afterPoint
  have hpoint := fractionText_append_drop afterWhole
  have hwhole := List.takeWhile_append_dropWhile (p := Char.isDigit) (l := cs)
  refine ⟨cs.takeWhile Char.isDigit, fractionText afterWhole, exponentText afterPoint,
    afterPoint.drop (exponentText afterPoint).length, ?_, ?_, ?_, ?_⟩ <;>
    simp only [hpower, afterPoint, hpoint, afterWhole, hwhole]

theorem Parts.stays (h : Parts whole point power rest) (hrest : StopsAs rest' rest)
    (hname : ∀ c ∈ rest.head?, continuesName c = false) : Parts whole point power rest' := by
  have hafterPoint : StopsAs (power ++ rest') (power ++ rest) := hrest.append power
  obtain ⟨hdigits, hstop⟩ := stop_of_takeWhile_append h.whole
  refine ⟨takeWhile_append_stop hdigits ?_, fractionText_stays hafterPoint h.point,
    exponentText_stays hrest hname h.power⟩
  -- Without a fraction it is the exponent, or what follows the numeral, that stops the digits.
  cases point with
  | nil => exact hafterPoint.run _ Lexeme.visible_isDigit hstop
  | cons c point => exact hstop

end

theorem positional_stays {cs : List Char} (h : StopsAs rest' (positional cs).rest)
    (hname : ∀ c ∈ (positional cs).rest.head?, continuesName c = false) :
    positional ((positional cs).text ++ rest') = { positional cs with rest := rest' } := by
  obtain ⟨whole, point, power, rest, rfl, hparts⟩ := exists_parts cs
  rw [hparts.positional_eq] at h hname ⊢
  have hparts' := hparts.stays h hname
  simpa only [List.append_assoc] using hparts'.positional_eq

/-- A zero and the letter x open a hexadecimal numeral. -/
def OpensHexadecimal (cs : List Char) : Prop :=
  ∃ mark tail, cs = '0' :: mark :: tail ∧ (mark = 'x' ∨ mark = 'X')

theorem read_eq_positional {cs : List Char} (h : ¬ OpensHexadecimal cs) :
    read cs = positional cs := by
  unfold read
  split
  · exact absurd ⟨_, _, rfl, .inl rfl⟩ h
  · exact absurd ⟨_, _, rfl, .inr rfl⟩ h
  · rfl

/-- What opens no hexadecimal numeral opens none before other text that no name goes on with. -/
theorem OpensHexadecimal.of_append {front : List Char} (hfront : front ≠ [])
    (hname : ∀ d ∈ rest'.head?, continuesName d = false)
    (h : OpensHexadecimal (front ++ rest')) : OpensHexadecimal (front ++ rest) := by
  obtain ⟨mark, tail, heq, hmark⟩ := h
  match front with
  | [] => exact absurd rfl hfront
  | [d] =>
    obtain ⟨_, rfl⟩ := List.cons.inj heq
    have hstop := hname mark rfl
    rcases hmark with rfl | rfl <;> exact absurd hstop (by decide)
  | d :: d' :: front =>
    obtain ⟨hd, heq⟩ := List.cons.inj heq
    obtain ⟨rfl, _⟩ := List.cons.inj heq
    exact ⟨d', front ++ rest, by rw [hd]; rfl, hmark⟩

theorem read_stays {c : Char} (hc : c.isDigit = true) {cs : List Char}
    (h : StopsAs rest' (read (c :: cs)).rest)
    (hname : ∀ d ∈ (read (c :: cs)).rest.head?, continuesName d = false) :
    read ((read (c :: cs)).text ++ rest') = { read (c :: cs) with rest := rest' } := by
  by_cases hhex : OpensHexadecimal (c :: cs)
  · obtain ⟨mark, tail, heq, rfl | rfl⟩ := hhex
    · rw [heq] at h ⊢
      exact hexadecimal_stays h
    · rw [heq] at h ⊢
      exact hexadecimal_stays h
  · have hname' := h.run _ Lexeme.visible_continuesName hname
    have happend := read_append (c :: cs)
    have hne := read_text_ne_nil hc cs
    rw [← happend] at hhex
    have hhex' := mt (OpensHexadecimal.of_append hne hname') hhex
    rw [happend] at hhex
    rw [read_eq_positional hhex] at h hname hhex' ⊢
    rw [read_eq_positional hhex', positional_stays h hname]

end Numeral

namespace Lexeme

variable {rest' : List Char}

theorem exists_splitSign {operandExpected : Bool} {c : Char} {cs : List Char}
    (h : startsNumber operandExpected c cs = true) :
    ∃ sign d ds, splitSign (c :: cs) = (sign, d :: ds) ∧ d.isDigit = true ∧
      (c.isDigit = true ∨ sign = [c]) := by
  by_cases hc : c.isDigit = true
  · refine ⟨[], c, cs, ?_, hc, .inl hc⟩
    unfold splitSign
    split <;> simp_all
  · simp only [startsNumber, hc, Bool.false_or, Bool.and_eq_true, Bool.or_eq_true, beq_iff_eq] at h
    obtain ⟨⟨_, hsign⟩, hdigit⟩ := h
    cases cs with
    | nil => cases hdigit
    | cons d ds => rcases hsign with rfl | rfl <;> exact ⟨_, d, ds, rfl, hdigit, .inr rfl⟩

/-- A number that is well formed stays what it is. -/
theorem number_stays {operandExpected : Bool} {c : Char} {cs : List Char}
    (hstart : startsNumber operandExpected c cs = true)
    (hfinal : (number (c :: cs)).kind.isFinal = false)
    (h : StopsAs rest' (number (c :: cs)).rest) :
    number ((number (c :: cs)).text ++ rest') = { number (c :: cs) with rest := rest' } := by
  obtain ⟨sign, d, ds, hsplit, hd, -⟩ := exists_splitSign hstart
  have happend := Numeral.read_append (d :: ds)
  have hne := Numeral.read_text_ne_nil hd ds
  simp only [number, hsplit] at hfinal h ⊢
  cases hvalue : (Numeral.read (d :: ds)).value with
  | none =>
    rw [hvalue] at hfinal
    cases hfinal
  | some x =>
    simp only [hvalue] at hfinal h ⊢
    split at hfinal
    · rename_i htail
      simp only [htail, if_true] at h ⊢
      -- No name goes on where the numeral ends, which the text that follows must not change.
      have hname := stop_of_takeWhile_eq_nil htail
      have hsource := Numeral.splitSign_append (c :: cs)
      simp only [hsplit] at hsource
      rw [← hsource, ← happend] at hsplit
      rw [splitSign_stays hne hsplit]
      simp only [Numeral.read_stays hd h hname, hvalue]
      have hname' := h.run _ visible_continuesName hname
      have htail' := takeWhile_eq_nil_of_stop hname'
      simp only [htail', if_true]
    · cases hfinal

/-- What starts a number does so before every text that comes after the number. -/
theorem startsNumber_stays {operandExpected : Bool} {c : Char} {cs : List Char}
    (hstart : startsNumber operandExpected c cs = true) {tail : List Char}
    (htext : (number (c :: cs)).text = c :: tail) (rest' : List Char) :
    startsNumber operandExpected c (tail ++ rest') = true := by
  obtain ⟨sign, d, ds, hsplit, hd, hc | rfl⟩ := exists_splitSign hstart
  · rw [startsNumber, hc, Bool.true_or]
  · have happend := Numeral.read_append (d :: ds)
    obtain ⟨n, ns, hnumeral⟩ := List.exists_cons_of_ne_nil (Numeral.read_text_ne_nil hd ds)
    obtain ⟨more, hnumber⟩ : ∃ more, (number (c :: cs)).text =
        [c] ++ ((Numeral.read (d :: ds)).text ++ more) := by
      simp only [number, hsplit]
      split
      · exact ⟨[], by rw [List.append_nil]; rfl⟩
      · split
        · exact ⟨[], by rw [List.append_nil]⟩
        · exact ⟨_, List.append_assoc ..⟩
    rw [hnumeral] at happend hnumber
    obtain ⟨rfl, _⟩ := List.cons.inj happend
    rw [htext] at hnumber
    obtain ⟨_, rfl⟩ := List.cons.inj hnumber
    simp only [startsNumber, Bool.or_eq_true, Bool.and_eq_true] at hstart ⊢
    exact hstart.imp id fun h => ⟨h.1, hd⟩

theorem startsNumber_of_stops {operandExpected : Bool} {c : Char} {tail rest : List Char}
    (h : StopsAs rest' rest) (hstart : startsNumber operandExpected c (tail ++ rest') = true) :
    startsNumber operandExpected c (tail ++ rest) = true := by
  cases tail with
  | cons d tail => exact hstart
  | nil =>
    simp only [List.nil_append, startsNumber, Bool.or_eq_true, Bool.and_eq_true] at hstart ⊢
    refine hstart.imp id fun hsign => ⟨hsign.1, ?_⟩
    by_contra hrest
    have hstop := any_head?_eq_false_iff.mp (Bool.eq_false_iff.mpr hrest)
    have hstop' := any_head?_eq_false_iff.mpr (h.run _ visible_isDigit hstop)
    rw [hstop'] at hsign
    cases hsign.2

theorem uuid_stays {opening cs : List Char} (hfinal : (uuid opening cs).kind.isFinal = false)
    (h : StopsAs rest' (uuid opening cs).rest) :
    ∃ digits, (uuid opening cs).text = opening ++ digits ∧
      uuid opening (digits ++ rest') = ⟨(uuid opening cs).kind, opening ++ digits, rest'⟩ := by
  simp only [uuid] at hfinal h ⊢
  split at hfinal
  · cases hfinal
  · rename_i hname
    rw [if_neg hname] at h ⊢
    split at hfinal
    · rename_i hgroups
      rw [if_pos hgroups] at h ⊢
      obtain ⟨htake, hdrop⟩ := h.takeWhile_dropWhile visible_continuesUuid
      have hname' : ¬ rest'.head?.any continuesName = true := by
        rw [Bool.not_eq_true, any_head?_eq_false_iff] at hname ⊢
        exact h.run _ visible_continuesName hname
      refine ⟨_, rfl, ?_⟩
      simp only [htake, hdrop, if_neg hname', if_pos hgroups]
    · cases hfinal

theorem word_stays {cs : List Char} (hfinal : (word cs).kind.isFinal = false)
    (h : StopsAs rest' (word cs).rest) :
    word ((word cs).text ++ rest') = { word cs with rest := rest' } := by
  simp only [word] at hfinal h ⊢
  by_cases hopening : (cs.takeWhile continuesName = ['u'] ∨ cs.takeWhile continuesName = ['U']) ∧
      (cs.dropWhile continuesName).head? = some ':'
  · simp only [if_pos hopening] at hfinal h ⊢
    obtain ⟨digits, htext, huuid⟩ := uuid_stays hfinal h
    have hcolon : ∀ c ∈ (':' :: (digits ++ rest')).head?, continuesName c = false := by
      rintro _ ⟨⟩
      decide
    have hall := takeWhile_spec continuesName cs
    have hsource : cs.takeWhile continuesName ++ [':'] ++ digits ++ rest' =
        cs.takeWhile continuesName ++ ':' :: (digits ++ rest') := by
      simp only [List.append_assoc, List.cons_append, List.nil_append]
    rw [htext, hsource, takeWhile_append_stop hall hcolon, dropWhile_append_stop hall hcolon,
      if_pos ⟨hopening.1, rfl⟩]
    exact huuid
  · simp only [if_neg hopening] at hfinal h ⊢
    obtain ⟨htake, hdrop⟩ := h.takeWhile_dropWhile visible_continuesName
    have hopening' : ¬ ((cs.takeWhile continuesName = ['u'] ∨
        cs.takeWhile continuesName = ['U']) ∧ rest'.head? = some ':') := by
      rintro ⟨hu, hcolon⟩
      exact h.head?_ne (by decide) (fun hhead => hopening ⟨hu, hhead⟩) hcolon
    rw [htake, hdrop, if_neg hopening']

end Lexeme

theorem Symbol.read?_stays {s : Symbol} {rest rest' : List Char}
    (hread : read? (s.text.toList ++ rest) = some s) (h : Lexeme.StopsAs rest' rest) :
    read? (s.text.toList ++ rest') = some s := by
  cases s with
  | less | greater =>
    have hstop : rest.head? ≠ some '=' := by
      intro hhead
      obtain ⟨tail, rfl⟩ := List.head?_eq_some_iff.mp hhead
      cases hread
    have hnext := h.head?_ne (by decide) hstop
    cases rest' with
    | nil => rfl
    | cons c tail =>
      have hc : ¬ '=' = c := fun heq => hnext (congrArg some heq.symm)
      simp [read?, all, Symbol.text, hc]
  | _ => rfl

theorem Lexeme.symbol_stays {c : Char} {cs tail rest' : List Char}
    (hfinal : (symbol c cs).kind.isFinal = false) (h : StopsAs rest' (symbol c cs).rest)
    (htext : (symbol c cs).text = c :: tail) :
    symbol c (tail ++ rest') = { symbol c cs with rest := rest' } := by
  have happend := (symbol_readFrom c cs).append
  unfold symbol at hfinal h htext happend ⊢
  cases hread : Symbol.read? (c :: cs) with
  | none =>
    rw [hread] at hfinal
    cases hfinal
  | some s =>
    simp only [hread] at h htext happend ⊢
    rw [← happend] at hread
    have hread' := Symbol.read?_stays hread h
    rw [htext, List.cons_append] at hread'
    have hdrop : (c :: (tail ++ rest')).drop s.text.toList.length = rest' := by
      rw [htext, ← List.cons_append, List.drop_left]
    rw [hread']
    simp only [hdrop]

namespace Lexeme

variable {rest' : List Char}

theorem quotation_stays {cs tail : List Char} (hfinal : (quotation cs).kind.isFinal = false)
    (htext : (quotation cs).text = '"' :: tail) :
    quotation (tail ++ rest') = { quotation cs with rest := rest' } := by
  unfold quotation at hfinal htext ⊢
  obtain ⟨_, rfl⟩ := List.cons.inj htext
  cases hcontent : (Quotation.read cs).content with
  | error e =>
    simp only [hcontent] at hfinal
    cases hfinal
  | ok content => simp only [Quotation.read_stays hcontent rest', hcontent]

/-- A token is read the same before every text that stops what the text after it stopped. -/
theorem read_stays {operandExpected : Bool} {cs : List Char}
    (hfinal : (read operandExpected cs).kind.isFinal = false)
    (h : StopsAs rest' (read operandExpected cs).rest) :
    read operandExpected ((read operandExpected cs).text ++ rest') =
      { read operandExpected cs with rest := rest' } := by
  cases cs with
  | nil => cases hfinal
  | cons c cs =>
    have hread := read_readFrom operandExpected (c :: cs)
    obtain ⟨tail, htext⟩ := hread.exists_text
    have happend := hread.append
    rw [htext] at happend
    rcases read_cases operandExpected c cs with
      ⟨hstart, heq⟩ | ⟨rfl, heq⟩ | ⟨hstart, heq⟩ | ⟨hnumber, hquote, hname, heq⟩ <;>
      rw [heq] at hfinal h htext happend ⊢
    · rw [← number_stays hstart hfinal h, htext]
      exact if_pos (startsNumber_stays hstart htext rest')
    · rw [← quotation_stays hfinal htext, htext]
      exact read_quote operandExpected _
    · rw [← word_stays hfinal h, htext]
      exact read_name hstart operandExpected _
    · rw [← symbol_stays hfinal h htext, htext]
      -- A sign alone looks at the next character, which may be the first one of the new text.
      have hnumber' : ¬ startsNumber operandExpected c (tail ++ rest') = true := by
        intro hstart
        have hsource := startsNumber_of_stops h hstart
        have htail : tail ++ (symbol c cs).rest = cs := (List.cons.inj happend).2
        rw [htail, hnumber] at hsource
        cases hsource
      simp only [List.cons_append, read, if_neg hnumber', if_neg hquote, hname, Bool.false_eq_true,
        if_false]

end Lexeme
end PredicateLang
