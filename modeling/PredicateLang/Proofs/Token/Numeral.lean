import PredicateLang.Proofs.Token.Boundary

/-!
# Numerals exactly

A numeral is the longest part of a text that is written as one: hexadecimal if any part
is, and decimal otherwise. What it denotes is stated by the way it is written, without the
text that follows it, whereas the reader looks ahead for a digit after a point and after an
exponent mark. The two agree, so that a numeral is read alike when the text is cut off
behind it.
-/

namespace PredicateLang

/-- The part is the longest of a form that the text starts with. -/
structure LongestPart (form : List Char → Prop) (part text : List Char) : Prop where
  leads : part <+: text
  holds : form part
  longest : ∀ other, other <+: text → form other → other.length ≤ part.length

namespace LongestPart

variable {form : List Char → Prop} {part part' text text' : List Char}

theorem unique (h : LongestPart form part text) (h' : LongestPart form part' text) :
    part = part' := by
  have hle := h'.longest part h.leads h.holds
  have hle' := h.longest part' h'.leads h'.holds
  exact (List.prefix_of_prefix_length_le h.leads h'.leads hle).eq_of_length_le hle'

/-- The longest part stays the longest when the text is cut off behind it. -/
theorem of_shorter (h : LongestPart form part text) (hpart : part <+: text')
    (htext : text' <+: text) : LongestPart form part text' :=
  ⟨hpart, h.holds, fun other hother => h.longest other (hother.trans htext)⟩

end LongestPart

namespace Numeral

/-- A plus, a minus or no sign. -/
def IsSign (sign : List Char) : Prop :=
  sign = [] ∨ sign = ['+'] ∨ sign = ['-']

/-- A zero, the letter x and digits, of which there may be none. -/
inductive WritesHexadecimal : List Char → List Char → Prop
  | intro {mark digits} : mark = 'x' ∨ mark = 'X' →
      (∀ d ∈ digits, Number.isHexDigit d = true) → WritesHexadecimal digits ('0' :: mark :: digits)

/-- The digits of a fraction come after a point. -/
inductive WritesFraction : List Char → List Char → Prop
  | none : WritesFraction [] []
  | digits {digits} : digits ≠ [] → (∀ d ∈ digits, d.isDigit = true) →
      WritesFraction digits ('.' :: digits)

/-- An exponent is written with a mark, an optional sign and digits, and left out if it is zero. -/
inductive WritesExponent : Int → List Char → Prop
  | none : WritesExponent 0 []
  | digits {mark sign digits} : mark = 'e' ∨ mark = 'E' → IsSign sign → digits ≠ [] →
      (∀ d ∈ digits, d.isDigit = true) →
      WritesExponent
        (if sign = ['-'] then -Number.ofDigits 10 digits else Number.ofDigits 10 digits)
        (mark :: (sign ++ digits))

/-- Digits with an optional fraction and an optional exponent. -/
inductive WritesDecimal : List Char → List Char → Int → List Char → Prop
  | intro {whole fraction point e power} : whole ≠ [] → (∀ d ∈ whole, d.isDigit = true) →
      WritesFraction fraction point → WritesExponent e power →
      WritesDecimal whole fraction e (whole ++ (point ++ power))

def IsHexadecimal (m : List Char) : Prop :=
  ∃ digits, WritesHexadecimal digits m

def IsDecimal (m : List Char) : Prop :=
  ∃ whole fraction e, WritesDecimal whole fraction e m

/-- The numeral that a text starts with: the longest hexadecimal one, or the longest decimal one
if there is no hexadecimal one. -/
def Leads (m text : List Char) : Prop :=
  LongestPart IsHexadecimal m text ∨
    (∀ part, part <+: text → ¬ IsHexadecimal part) ∧ LongestPart IsDecimal m text

/-- Several digits, the first of them zero, without fraction and exponent. -/
def HasLeadingZero (m : List Char) : Prop :=
  m.head? = some '0' ∧ 2 ≤ m.length ∧ ∀ d ∈ m, d.isDigit = true

/-- The number that a numeral denotes, if it denotes one. In base 16 and 8 it has to have digits
of the base only, at least one, and to fit 64 bits. -/
inductive Denotes : List Char → Float → Prop
  | hexadecimal {digits m} : WritesHexadecimal digits m → digits ≠ [] →
      Number.ofDigits 16 digits < UInt64.size →
      Denotes m (Number.ofWord (Number.ofDigits 16 digits))
  | octal {m} : HasLeadingZero m → (∀ d ∈ m, Number.isOctalDigit d = true) →
      Number.ofDigits 8 m < UInt64.size → Denotes m (Number.ofWord (Number.ofDigits 8 m))
  | decimal {whole fraction e m} : WritesDecimal whole fraction e m → ¬ HasLeadingZero m →
      Denotes m (Number.Decimal.ofParts whole fraction e).toFloat

end Numeral

section
variable {p : Char → Bool} {run cs : List Char}

/-- A run that a text starts with is part of the longest one. -/
theorem prefix_takeWhile (hrun : ∀ c ∈ run, p c = true) (h : run <+: cs) :
    run <+: cs.takeWhile p := by
  obtain ⟨more, rfl⟩ := h
  rw [List.takeWhile_append_of_pos hrun]
  exact List.prefix_append _ _

end

theorem isDigit_point : Char.isDigit '.' = false := by decide

theorem isSign_splitSign (cs : List Char) : Numeral.IsSign (splitSign cs).1 := by
  unfold splitSign
  split
  · exact .inr (.inl rfl)
  · exact .inr (.inr rfl)
  · exact .inl rfl

theorem splitSign_eq {sign body : List Char} (hsign : Numeral.IsSign sign)
    (hbody : ∀ c ∈ body.head?, c.isDigit = true) : splitSign (sign ++ body) = (sign, body) := by
  rcases hsign with rfl | rfl | rfl
  · show splitSign body = ([], body)
    unfold splitSign
    split
    · exact absurd (hbody '+' rfl) (by decide)
    · exact absurd (hbody '-' rfl) (by decide)
    · rfl
  · rfl
  · rfl

namespace Numeral

section
variable {whole fraction point power rest m : List Char} {e : Int}

theorem writesFraction_fractionText (cs : List Char) :
    WritesFraction ((fractionText cs).drop 1) (fractionText cs) := by
  unfold fractionText
  split
  · exact .none
  · rename_i hsome
    refine .digits (fun hnil => hsome (List.isEmpty_iff.mpr hnil)) ?_
    show ∀ d ∈ Numeral.fraction cs, d.isDigit = true
    unfold Numeral.fraction
    split
    · exact takeWhile_spec _ _
    · intro d hd
      cases hd

theorem writesExponent_exponentText (cs : List Char) :
    WritesExponent (exponent (exponentText cs)) (exponentText cs) := by
  cases cs with
  | nil => exact .none
  | cons mark cs =>
    simp only [exponentText]
    split
    · rename_i hsome
      have hsign := isSign_splitSign cs
      have hall := takeWhile_spec Char.isDigit (splitSign cs).2
      have hhead : ∀ c ∈ ((splitSign cs).2.takeWhile Char.isDigit).head?, c.isDigit = true :=
        fun c hc => hall c (List.mem_of_mem_head? hc)
      have hwrites := WritesExponent.digits hsome.1 hsign hsome.2 hall
      simpa only [exponent, List.drop_one, List.tail_cons, splitSign_eq hsign hhead] using hwrites
    · exact .none

theorem WritesFraction.drop_one (h : WritesFraction fraction point) : point.drop 1 = fraction := by
  cases h <;> rfl

theorem WritesExponent.exponent_eq (h : WritesExponent e power) : exponent power = e := by
  cases h with
  | none => rfl
  | @digits mark sign digits hmark hsign hne hdigits =>
    have hhead : ∀ c ∈ digits.head?, c.isDigit = true :=
      fun c hc => hdigits c (List.mem_of_mem_head? hc)
    simp only [exponent, List.drop_one, List.tail_cons, splitSign_eq hsign hhead]

/-- A fraction that is written takes in the digits that follow it. -/
theorem WritesFraction.fractionText_append (h : WritesFraction fraction point) (hpoint : point ≠ [])
    (rest : List Char) :
    fractionText (point ++ rest) = point ++ rest.takeWhile Char.isDigit := by
  cases h with
  | none => exact absurd rfl hpoint
  | digits hne hdigits =>
    have hrun : (_ ++ rest).takeWhile Char.isDigit = _ := List.takeWhile_append_of_pos hdigits
    have hsome := List.append_ne_nil_of_left_ne_nil hne (rest.takeWhile Char.isDigit)
    rw [List.cons_append, fractionText, Numeral.fraction, hrun,
      if_neg fun hempty => hsome (List.isEmpty_iff.mp hempty), List.cons_append]

/-- An exponent that is written takes in the digits that follow it. -/
theorem WritesExponent.exponentText_append (h : WritesExponent e power) (hpower : power ≠ [])
    (rest : List Char) :
    exponentText (power ++ rest) = power ++ rest.takeWhile Char.isDigit := by
  cases h with
  | none => exact absurd rfl hpower
  | @digits mark sign digits hmark hsign hne hdigits =>
    obtain ⟨d, ds, rfl⟩ := List.exists_cons_of_ne_nil hne
    have hhead : ∀ c ∈ (d :: ds ++ rest).head?, c.isDigit = true := by
      rintro _ ⟨⟩
      exact hdigits d List.mem_cons_self
    have hrun : (_ ++ rest).takeWhile Char.isDigit = _ := List.takeWhile_append_of_pos hdigits
    rw [List.cons_append, List.append_assoc, exponentText, splitSign_eq hsign hhead]
    simp only [hrun]
    rw [if_pos ⟨hmark, List.append_ne_nil_of_left_ne_nil hne _⟩]
    simp only [List.cons_append, List.append_assoc]

theorem WritesFraction.stops (h : WritesFraction fraction point) (hpoint : point ≠ [])
    (rest : List Char) : ∀ c ∈ (point ++ rest).head?, c.isDigit = false := by
  cases h with
  | none => exact absurd rfl hpoint
  | digits =>
    rintro _ ⟨⟩
    exact isDigit_point

/-- An exponent mark goes on neither with the digits nor with a fraction. -/
theorem WritesExponent.stops (h : WritesExponent e power) (hpower : power ≠ [])
    (rest : List Char) : ∀ c ∈ (power ++ rest).head?, c.isDigit = false ∧ c ≠ '.' := by
  cases h with
  | none => exact absurd rfl hpower
  | digits hmark =>
    rintro _ ⟨⟩
    rcases hmark with rfl | rfl <;> decide

theorem fractionText_of_head (h : ∀ c ∈ rest.head?, c ≠ '.') : fractionText rest = [] := by
  have hnone : Numeral.fraction rest = [] := by
    unfold Numeral.fraction
    split
    · exact absurd rfl (h '.' rfl)
    · rfl
  rw [fractionText, hnone]
  rfl

/-- Digits and fraction are found again in front of what continues neither. -/
theorem WritesFraction.parts (hpoint : WritesFraction fraction point)
    (hwhole : ∀ d ∈ whole, d.isDigit = true)
    (hrest : ∀ c ∈ rest.head?, c.isDigit = false ∧ c ≠ '.') :
    (whole ++ (point ++ rest)).takeWhile Char.isDigit = whole ∧
      fractionText (point ++ rest) = point := by
  by_cases hnone : point = []
  · subst hnone
    exact ⟨takeWhile_append_stop hwhole fun c hc => (hrest c hc).1,
      fractionText_of_head fun c hc => (hrest c hc).2⟩
  · constructor
    · exact takeWhile_append_stop hwhole (hpoint.stops hnone rest)
    · rw [hpoint.fractionText_append hnone, takeWhile_eq_nil_of_stop fun c hc => (hrest c hc).1,
        List.append_nil]

/-- A decimal numeral is read whole where the text ends with it. -/
theorem parts_of_writes (hwhole : ∀ d ∈ whole, d.isDigit = true)
    (hpoint : WritesFraction fraction point) (hpower : WritesExponent e power) :
    Parts whole point power [] := by
  by_cases hnil : power = []
  · subst hnil
    have hend : ∀ c ∈ ([] : List Char).head?, c.isDigit = false ∧ c ≠ '.' := fun c hc => by cases hc
    obtain ⟨htake, hfraction⟩ := hpoint.parts hwhole hend
    exact ⟨htake, hfraction, rfl⟩
  · obtain ⟨htake, hfraction⟩ := hpoint.parts hwhole (hpower.stops hnil [])
    have htext := hpower.exponentText_append hnil []
    rw [List.takeWhile_nil, List.append_nil] at htext
    exact ⟨htake, hfraction, by rw [List.append_nil, htext]⟩

/-- What follows the digits of a numeral starts with a point or an exponent mark. -/
theorem mark_of_writes (hpoint : WritesFraction fraction point) (hpower : WritesExponent e power) :
    ∀ c ∈ (point ++ power).head?, c = '.' ∨ c = 'e' ∨ c = 'E' := by
  cases hpoint with
  | none =>
    cases hpower with
    | none =>
      intro c hc
      cases hc
    | digits hmark =>
      rintro _ ⟨⟩
      exact .inr hmark
  | digits =>
    rintro _ ⟨⟩
    exact .inl rfl

theorem IsDecimal.exists_parts (h : IsDecimal m) : ∃ whole fraction e point power,
    m = whole ++ (point ++ power) ∧ whole ≠ [] ∧ (∀ d ∈ whole, d.isDigit = true) ∧
      WritesFraction fraction point ∧ WritesExponent e power := by
  obtain ⟨whole, fraction, e, ⟨hne, hwhole, hpoint, hpower⟩⟩ := h
  exact ⟨_, _, _, _, _, rfl, hne, hwhole, hpoint, hpower⟩

/-- The reader goes at least as far as a decimal numeral that the text starts with. -/
theorem IsDecimal.prefix_text (h : IsDecimal m) (rest : List Char) :
    m <+: (positional (m ++ rest)).text := by
  obtain ⟨whole, fraction, e, point, power, rfl, -, hwhole, hpoint, hpower⟩ := h.exists_parts
  simp only [positional, List.append_assoc]
  by_cases hnil : power = []
  · subst hnil
    by_cases hnone : point = []
    · subst hnone
      have hrun := prefix_takeWhile hwhole (List.prefix_append whole rest)
      simpa only [List.nil_append, List.append_nil] using hrun.trans (List.prefix_append _ _)
    · have hstop : ∀ c ∈ (point ++ rest).head?, c.isDigit = false := hpoint.stops hnone rest
      rw [List.append_nil, List.nil_append, takeWhile_append_stop hwhole hstop,
        dropWhile_append_stop hwhole hstop, hpoint.fractionText_append hnone]
      rw [List.prefix_append_right_inj, List.append_assoc]
      exact List.prefix_append _ _
  · have hstops := hpower.stops hnil rest
    obtain ⟨htake, hfraction⟩ := hpoint.parts hwhole hstops
    obtain ⟨_, hstop⟩ := stop_of_takeWhile_append htake
    rw [htake, dropWhile_append_stop hwhole hstop, hfraction, List.drop_left,
      hpower.exponentText_append hnil]
    rw [List.prefix_append_right_inj, List.prefix_append_right_inj]
    exact List.prefix_append _ _

theorem isDecimal_positional {c : Char} (hc : c.isDigit = true) (cs : List Char) :
    IsDecimal (positional (c :: cs)).text := by
  have hwhole : (c :: cs).takeWhile Char.isDigit ≠ [] := by
    rw [List.takeWhile_cons_of_pos hc]
    exact List.cons_ne_nil _ _
  have hwrites := WritesDecimal.intro hwhole (takeWhile_spec _ _)
    (writesFraction_fractionText ((c :: cs).dropWhile Char.isDigit))
    (writesExponent_exponentText (((c :: cs).dropWhile Char.isDigit).drop
      (fractionText ((c :: cs).dropWhile Char.isDigit)).length))
  rw [← List.append_assoc] at hwrites
  exact ⟨_, _, _, hwrites⟩

theorem opensHexadecimal_of_isHexadecimal {part text : List Char} (h : part <+: text)
    (hpart : IsHexadecimal part) : OpensHexadecimal text := by
  obtain ⟨more, rfl⟩ := h
  obtain ⟨digits, ⟨hmark, -⟩⟩ := hpart
  exact ⟨_, digits ++ more, rfl, hmark⟩

theorem read_eq_hexadecimal {mark : Char} (hmark : mark = 'x' ∨ mark = 'X') (cs : List Char) :
    read ('0' :: mark :: cs) = hexadecimal mark cs := by
  rcases hmark with rfl | rfl <;> rfl

theorem IsDecimal.not_opensHexadecimal (h : IsDecimal m) : ¬ OpensHexadecimal m := by
  obtain ⟨whole, fraction, e, point, power, rfl, hne, hwhole, hpoint, hpower⟩ := h.exists_parts
  rintro ⟨mark, tail, heq, hmark⟩
  match whole with
  | [] => exact hne rfl
  | [d] =>
    rw [List.cons_append, List.nil_append] at heq
    have hhead := mark_of_writes hpoint hpower mark (by rw [(List.cons.inj heq).2]; rfl)
    rcases hmark with rfl | rfl <;> revert hhead <;> decide
  | d :: d' :: ds =>
    obtain ⟨rfl, -⟩ := List.cons.inj (List.cons.inj heq).2
    have hdigit := hwhole d' (List.mem_cons_of_mem _ List.mem_cons_self)
    rcases hmark with rfl | rfl <;> exact absurd hdigit (by decide)

/-- What is read is the longest numeral that the text starts with. -/
theorem leads_read {c : Char} (hc : c.isDigit = true) (cs : List Char) :
    Leads (read (c :: cs)).text (c :: cs) := by
  by_cases hhex : OpensHexadecimal (c :: cs)
  · obtain ⟨mark, tail, heq, hmark⟩ := hhex
    rw [heq, read_eq_hexadecimal hmark]
    refine .inl ⟨?_, ⟨_, .intro hmark (takeWhile_spec _ tail)⟩, ?_⟩
    · simp only [hexadecimal, List.cons_prefix_cons, true_and]
      exact List.takeWhile_prefix _
    · rintro _ hother ⟨digits, ⟨-, hdigits⟩⟩
      simp only [List.cons_prefix_cons] at hother
      have hrun := prefix_takeWhile hdigits hother.2.2
      simp only [hexadecimal, List.length_cons]
      have hle := hrun.length_le
      omega
  · have happend := positional_append (c :: cs)
    rw [read_eq_positional hhex]
    refine .inr ⟨fun part hpart hform => hhex (opensHexadecimal_of_isHexadecimal hpart hform),
      ⟨_, happend⟩, isDecimal_positional hc cs, ?_⟩
    rintro other ⟨more, heq⟩ hother
    rw [← heq]
    exact (hother.prefix_text more).length_le

theorem Parts.alone (h : Parts whole point power rest) : Parts whole point power [] := by
  have hpoint := writesFraction_fractionText (point ++ (power ++ rest))
  have hpower := writesExponent_exponentText (power ++ rest)
  rw [h.point] at hpoint
  rw [h.power] at hpower
  exact parts_of_writes (stop_of_takeWhile_append h.whole).1 hpoint hpower

/-- A numeral is read alike when the text is cut off behind it. -/
theorem read_alone (cs : List Char) : read (read cs).text = { read cs with rest := [] } := by
  by_cases hhex : OpensHexadecimal cs
  · obtain ⟨mark, tail, rfl, hmark⟩ := hhex
    have hall := takeWhile_spec Number.isHexDigit tail
    have htake := List.takeWhile_eq_self_iff.mpr hall
    have hdrop := List.dropWhile_eq_nil_iff.mpr hall
    rw [read_eq_hexadecimal hmark]
    simp only [hexadecimal, read_eq_hexadecimal hmark, htake, hdrop]
  · obtain ⟨whole, point, power, rest, rfl, hparts⟩ := exists_parts cs
    have hshort : ¬ OpensHexadecimal (whole ++ point ++ power) := by
      rintro ⟨mark, tail, heq, hmark⟩
      refine hhex ⟨mark, tail ++ rest, ?_, hmark⟩
      have heq := congrArg (· ++ rest) heq
      simpa only [List.append_assoc, List.cons_append] using heq
    rw [read_eq_positional hhex, hparts.positional_eq, read_eq_positional hshort]
    have halone := hparts.alone.positional_eq
    rw [List.append_nil, ← List.append_assoc] at halone
    exact halone

theorem exists_digit_of_form (h : IsHexadecimal m ∨ IsDecimal m) :
    ∃ d ds, m = d :: ds ∧ d.isDigit = true := by
  rcases h with ⟨digits, ⟨_, _⟩⟩ | h
  · exact ⟨_, _, rfl, by decide⟩
  · obtain ⟨whole, fraction, e, point, power, rfl, hne, hwhole, -, -⟩ := h.exists_parts
    obtain ⟨d, ds, rfl⟩ := List.exists_cons_of_ne_nil hne
    exact ⟨d, _, rfl, hwhole d List.mem_cons_self⟩

namespace Leads

variable {text m' : List Char}

theorem form (h : Leads m text) : IsHexadecimal m ∨ IsDecimal m :=
  h.imp (fun hhex => hhex.holds) fun hdec => hdec.2.holds

theorem unique (h : Leads m text) (h' : Leads m' text) : m = m' := by
  rcases h with h | ⟨hnot, h⟩
  · rcases h' with h' | ⟨hnot', -⟩
    · exact h.unique h'
    · exact absurd h.holds (hnot' m h.leads)
  · rcases h' with h' | ⟨-, h'⟩
    · exact absurd h'.holds (hnot m' h'.leads)
    · exact h.unique h'

theorem of_shorter {text' : List Char} (h : Leads m text) (hm : m <+: text')
    (htext : text' <+: text) : Leads m text' :=
  h.imp (fun hhex => hhex.of_shorter hm htext) fun ⟨hnot, hdec⟩ =>
    ⟨fun part hpart => hnot part (hpart.trans htext), hdec.of_shorter hm htext⟩

theorem read_eq (h : Leads m (m ++ rest)) : read (m ++ rest) = ⟨(read m).value, m, rest⟩ := by
  obtain ⟨d, ds, hm, hd⟩ := exists_digit_of_form h.form
  have hread := leads_read hd (ds ++ rest)
  rw [← List.cons_append, ← hm] at hread
  have htext := hread.unique h
  have happend := read_append (m ++ rest)
  have halone := read_alone (m ++ rest)
  rw [htext] at happend halone
  have hrest := List.append_cancel_left happend
  calc
    read (m ++ rest) =
        ⟨(read (m ++ rest)).value, (read (m ++ rest)).text, (read (m ++ rest)).rest⟩ := rfl
    _ = ⟨(read m).value, m, rest⟩ := by rw [htext, hrest, halone]

end Leads

theorem word?_eq_some_iff {base : Nat} {digits : List Char} {x : Float} :
    word? base digits = some x ↔ digits ≠ [] ∧ Number.ofDigits base digits < UInt64.size ∧
      x = Number.ofWord (Number.ofDigits base digits) := by
  simp only [word?]
  split
  · rename_i h
    simp only [Option.some.injEq, h, ne_eq, not_false_eq_true, true_and]
    exact eq_comm
  · rename_i h
    simp only [reduceCtorEq, false_iff]
    rintro ⟨hne, hlt, -⟩
    exact h ⟨hne, hlt⟩

theorem octal?_eq_some_iff {digits : List Char} {x : Float} :
    octal? digits = some x ↔ (∀ d ∈ digits, Number.isOctalDigit d = true) ∧ digits ≠ [] ∧
      Number.ofDigits 8 digits < UInt64.size ∧ x = Number.ofWord (Number.ofDigits 8 digits) := by
  unfold octal?
  split
  · rename_i h
    rw [word?_eq_some_iff, ← List.all_eq_true, h]
    simp only [true_and]
  · rename_i h
    rw [List.all_eq_true] at h
    simp only [reduceCtorEq, false_iff]
    exact fun hall => h hall.1

theorem isOctal_iff {whole : List Char} :
    isOctal whole = true ↔ whole.head? = some '0' ∧ 2 ≤ whole.length := by
  unfold isOctal
  split
  · simp
  · rename_i h
    simp only [Bool.false_eq_true, false_iff]
    rintro ⟨hhead, hlength⟩
    match whole with
    | [] => cases hhead
    | [c] => cases Nat.le_of_succ_le_succ hlength
    | c :: d :: ds =>
      obtain rfl := Option.some.inj hhead
      exact h d ds rfl

theorem ofDigits_zero (base : Nat) (digits : List Char) :
    Number.ofDigits base ('0' :: digits) = Number.ofDigits base digits := by
  have hzero : 0 * base + Number.digitValue '0' = 0 := by
    rw [Nat.zero_mul]
    rfl
  rw [Number.ofDigits, List.foldl_cons, hzero]
  rfl

theorem hasLeadingZero_iff (hwhole : ∀ d ∈ whole, d.isDigit = true)
    (hpoint : WritesFraction fraction point) (hpower : WritesExponent e power) :
    HasLeadingZero (whole ++ (point ++ power)) ↔
      point = [] ∧ power = [] ∧ isOctal whole = true := by
  constructor
  · rintro ⟨hhead, hlength, hdigits⟩
    have hmore : point ++ power = [] := by
      cases hmore : point ++ power with
      | nil => rfl
      | cons c cs =>
        have hmark := mark_of_writes hpoint hpower c (by rw [hmore]; rfl)
        have hdigit := hdigits c (by rw [hmore]; exact List.mem_append_right _ List.mem_cons_self)
        rcases hmark with rfl | rfl | rfl <;> exact absurd hdigit (by decide)
    rw [hmore, List.append_nil] at hhead hlength
    exact ⟨(List.append_eq_nil_iff.mp hmore).1, (List.append_eq_nil_iff.mp hmore).2,
      isOctal_iff.mpr ⟨hhead, hlength⟩⟩
  · rintro ⟨rfl, rfl, hoctal⟩
    obtain ⟨hhead, hlength⟩ := isOctal_iff.mp hoctal
    rw [List.append_nil, List.append_nil]
    exact ⟨hhead, hlength, hwhole⟩

/-- A decimal numeral alone has the value of its parts. -/
theorem value_of_writes (hne : whole ≠ []) (hwhole : ∀ d ∈ whole, d.isDigit = true)
    (hpoint : WritesFraction fraction point) (hpower : WritesExponent e power) :
    (read (whole ++ (point ++ power))).value =
      if point = [] ∧ power = [] ∧ isOctal whole = true then octal? (whole.drop 1)
      else some (Number.Decimal.ofParts whole fraction e).toFloat := by
  have hdecimal : IsDecimal (whole ++ (point ++ power)) :=
    ⟨_, _, _, .intro hne hwhole hpoint hpower⟩
  have hparts := (parts_of_writes hwhole hpoint hpower).positional_eq
  rw [List.append_nil] at hparts
  rw [read_eq_positional hdecimal.not_opensHexadecimal, hparts, ← hpoint.drop_one,
    ← hpower.exponent_eq]
  rfl

/-- Leading zeros add nothing to the value of octal digits. -/
theorem octal?_drop_one (hoctal : isOctal whole = true) {x : Float} :
    octal? (whole.drop 1) = some x ↔ (∀ d ∈ whole, Number.isOctalDigit d = true) ∧
      Number.ofDigits 8 whole < UInt64.size ∧ x = Number.ofWord (Number.ofDigits 8 whole) := by
  obtain ⟨hhead, hlength⟩ := isOctal_iff.mp hoctal
  obtain ⟨ds, rfl⟩ := List.head?_eq_some_iff.mp hhead
  have hne : ds ≠ [] := by
    rintro rfl
    exact absurd hlength (by decide)
  have hzero : Number.isOctalDigit '0' = true := by decide
  rw [List.drop_one, List.tail_cons, octal?_eq_some_iff, ofDigits_zero, List.forall_mem_cons]
  simp only [hne, hzero, ne_eq, not_false_eq_true, true_and]

/-- The reader finds the value that the numeral denotes, and none if it denotes none. -/
theorem value_eq_some_iff (h : IsHexadecimal m ∨ IsDecimal m) {x : Float} :
    (read m).value = some x ↔ Denotes m x := by
  constructor
  · intro hvalue
    rcases h with ⟨digits, hwrites⟩ | h
    · obtain ⟨hmark, hdigits⟩ := hwrites
      rw [read_eq_hexadecimal hmark, hexadecimal, List.takeWhile_eq_self_iff.mpr hdigits,
        word?_eq_some_iff] at hvalue
      obtain ⟨hne, hlt, rfl⟩ := hvalue
      exact .hexadecimal (.intro hmark hdigits) hne hlt
    · obtain ⟨whole, fraction, e, point, power, rfl, hne, hwhole, hpoint, hpower⟩ := h.exists_parts
      have hzero := hasLeadingZero_iff hwhole hpoint hpower
      rw [value_of_writes hne hwhole hpoint hpower] at hvalue
      split at hvalue
      · rename_i hoctal
        have hleading := hzero.mpr hoctal
        obtain ⟨rfl, rfl, hoctal⟩ := hoctal
        obtain ⟨hall, hlt, rfl⟩ := (octal?_drop_one hoctal).mp hvalue
        rw [List.append_nil, List.append_nil] at hleading ⊢
        exact .octal hleading hall hlt
      · rename_i hoctal
        obtain rfl := Option.some.inj hvalue
        exact .decimal (.intro hne hwhole hpoint hpower) (mt hzero.mp hoctal)
  · intro hdenotes
    cases hdenotes with
    | hexadecimal hwrites hne hlt =>
      obtain ⟨hmark, hdigits⟩ := hwrites
      rw [read_eq_hexadecimal hmark, hexadecimal, List.takeWhile_eq_self_iff.mpr hdigits,
        word?_eq_some_iff]
      exact ⟨hne, hlt, rfl⟩
    | octal hleading hall hlt =>
      have hne : m ≠ [] := by
        rintro rfl
        exact absurd hleading.2.1 (by decide)
      have hoctal := isOctal_iff.mpr ⟨hleading.1, hleading.2.1⟩
      have hvalue := value_of_writes hne hleading.2.2 .none .none
      rw [List.append_nil, List.append_nil, if_pos ⟨rfl, rfl, hoctal⟩] at hvalue
      rw [hvalue, octal?_drop_one hoctal]
      exact ⟨hall, hlt, rfl⟩
    | decimal hwrites hleading =>
      obtain ⟨hne, hwhole, hpoint, hpower⟩ := hwrites
      rw [value_of_writes hne hwhole hpoint hpower,
        if_neg (mt (hasLeadingZero_iff hwhole hpoint hpower).mpr hleading)]

end

end Numeral

end PredicateLang
