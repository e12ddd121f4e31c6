import PredicateLang.Proofs.Token.Phrase
import PredicateLang.Proofs.Token.Tiling

/-!
# Layout

The white space of a source may be exchanged for other white space. Tokens that stand
apart have to stay apart; tokens that touch may be moved apart, since what ends a
token where another one follows also ends it before white space. The source must not
be malformed: a malformed token may go on in the text after it.
-/

namespace PredicateLang

namespace Source

/-- The texts in front of the tokens, each from the end of the token before it, the first one from
a byte offset on. -/
def gapsFrom (source : String) (start : Nat) : List Token → List String
  | [] => []
  | t :: ts =>
    (Span.mk start (t.span.offset - start)).excerpt source :: gapsFrom source t.span.stop ts

/-- The texts in front of the tokens of a source. The last one stands at its end. -/
def gaps (source : String) : List String :=
  gapsFrom source 0 (tokens source)

/-- The texts of the tokens of a source. -/
def words (source : String) : List String :=
  (tokens source).map fun t => t.span.excerpt source

/-- The words in their order, each with a gap in front of it. -/
def interleave : List String → List String → String
  | gap :: gaps, word :: words => gap ++ word ++ interleave gaps words
  | _, _ => ""

end Source

/-- White space for the gaps of a source. There is some between two tokens that had some between
them; before the first and after the last one there need not be any. -/
structure Layout (source : String) where
  gaps : List String
  length_eq : gaps.length = (tokens source).length
  blank : ∀ gap ∈ gaps, Text.Blank gap.toList
  separates : ∀ i, 0 < i → i + 1 < gaps.length → gaps[i]? = some "" →
    (Source.gaps source)[i]? = some ""

/-- The source with this white space in its gaps. -/
def Layout.text {source : String} (l : Layout source) : String :=
  Source.interleave l.gaps (Source.words source)

namespace Piece

/-- The pieces with other gaps. -/
def relay (ps : List Piece) (gaps : List String) : List Piece :=
  List.zipWith (fun p gap => { p with gap := gap.toList }) ps gaps

@[simp] theorem relay_cons (p : Piece) (ps : List Piece) (gap : String) (gaps : List String) :
    relay (p :: ps) (gap :: gaps) = { p with gap := gap.toList } :: relay ps gaps := rfl

section
variable {ps : List Piece} {gaps : List String}

theorem map_relay {β : Type} {f : Piece → β}
    (hf : ∀ (p : Piece) (gap : List Char), f { p with gap } = f p)
    (h : gaps.length = ps.length) : (relay ps gaps).map f = ps.map f := by
  induction ps generalizing gaps with
  | nil => rfl
  | cons p ps ih =>
    obtain ⟨gap, gaps, rfl⟩ := List.exists_cons_of_length_eq_add_one h
    have htail : gaps.length = ps.length := Nat.succ.inj h
    rw [relay_cons, List.map_cons, List.map_cons, ih htail, hf]

theorem relay_self (ps : List Piece) : relay ps (ps.map fun p => String.ofList p.gap) = ps := by
  induction ps with
  | nil => rfl
  | cons p ps ih => rw [List.map_cons, relay_cons, ih, String.toList_ofList]

theorem toList_interleave (ps : List Piece) (gaps : List String) :
    (Source.interleave gaps (ps.map fun p => String.ofList p.text)).toList =
      written (relay ps gaps) := by
  induction ps generalizing gaps with
  | nil => cases gaps <;> rfl
  | cons p ps ih =>
    cases gaps with
    | nil => rfl
    | cons gap gaps =>
      simp only [List.map_cons, Source.interleave, String.toList_append, String.toList_ofList,
        List.append_assoc, ih, relay_cons, written_cons]

end

/-- The gaps and the words of pieces are cut out of the source by the spans of their tokens. -/
theorem gapsFrom_tokens {source : String} {before rest : List Char} {ps : List Piece}
    (h : source.toList = before ++ (written ps ++ rest)) :
    Source.gapsFrom source (Source.byteSize before) (tokens (Source.byteSize before) ps) =
        ps.map (fun p => String.ofList p.gap) ∧
      (tokens (Source.byteSize before) ps).map (fun t => t.span.excerpt source) =
        ps.map fun p => String.ofList p.text := by
  induction ps generalizing before with
  | nil => exact ⟨rfl, rfl⟩
  | cons p ps ih =>
    obtain ⟨hat, hpast⟩ := split_written_cons h
    have hgap := Source.excerpt?_eq hat
    have htext : (p.token (Source.byteSize before)).span.excerpt? source =
        some (String.ofList p.text) := by
      rw [token, ← Source.byteSize_append]
      exact Source.excerpt?_eq (by rw [hat, List.append_assoc])
    have hoffset : (p.token (Source.byteSize before)).span.offset - Source.byteSize before =
        Source.byteSize p.gap := Nat.add_sub_cancel_left _ _
    obtain ⟨hgaps, hwords⟩ := ih hpast
    rw [Source.byteSize_append] at hwords
    constructor
    · rw [tokens, Source.gapsFrom, hoffset, stop_token, ← Source.byteSize_append, hgaps,
        Span.excerpt, hgap]
      rfl
    · rw [tokens, List.map_cons, hwords, Span.excerpt, htext]
      rfl

section
variable {operandExpected : Bool} {ps : List Piece} {gaps : List String}

/-- Where no gap vanishes, other gaps stop what the former ones stopped. -/
theorem Reads.stopsAs_relay (h : Reads operandExpected ps [])
    (hend : ∀ p ∈ ps, p.kind.isFinal = true → p.kind = .endOfInput)
    (hlength : gaps.length = ps.length) (hblank : ∀ gap ∈ gaps, Text.Blank gap.toList)
    (hkept : ∀ i, i + 1 < gaps.length → gaps[i]? = some "" → (ps.map Piece.gap)[i]? = some []) :
    Lexeme.StopsAs (written (relay ps gaps)) (written ps) := by
  generalize hrest : ([] : List Char) = rest at h
  induction h generalizing gaps with
  | @last _ p rest hp hfinal =>
    subst hrest
    obtain ⟨gap, rfl⟩ := List.length_eq_one_iff.mp hlength
    have hkind := hend p (List.mem_singleton_self p) hfinal
    have htext := hp.text_eq_nil_iff.mpr hkind
    apply Lexeme.StopsAs.of_blank
    rw [relay_cons, written_cons, htext]
    exact (Text.Blank.append (hblank gap (List.mem_singleton_self gap)) .nil).head?
  | @cons _ p ps rest hp hopen hreads ih =>
    obtain ⟨gap, gaps, rfl⟩ := List.exists_cons_of_length_eq_add_one hlength
    obtain ⟨hgap, hgaps⟩ := List.forall_mem_cons.mp hblank
    have htail : gaps.length = ps.length := Nat.succ.inj hlength
    have hstops := ih (fun q hq => hend q (List.mem_cons_of_mem p hq)) htail hgaps
      (fun i hi => hkept (i + 1) (Nat.succ_lt_succ hi)) hrest
    rw [relay_cons, written_cons, written_cons]
    by_cases hnil : gap = ""
    · have hpos : 0 < ps.length := by
        cases hreads <;> exact Nat.succ_pos _
      have hformer : p.gap = [] :=
        Option.some.inj (hkept 0 (by rw [List.length_cons]; omega) (congrArg some hnil))
      rw [hformer, hnil]
      exact hstops.append p.text
    · apply Lexeme.StopsAs.of_blank
      have hne : gap.toList ≠ [] := fun h => hnil (String.toList_eq_nil_iff.mp h)
      show ∀ c ∈ (gap.toList ++ (p.text ++ written (relay ps gaps))).head?, Text.isBlank c = true
      rw [List.head?_append_of_ne_nil _ hne]
      exact hgap.head?

/-- The pieces are read with other gaps in front of them as well. -/
theorem Reads.relay (h : Reads operandExpected ps [])
    (hend : ∀ p ∈ ps, p.kind.isFinal = true → p.kind = .endOfInput)
    (hlength : gaps.length = ps.length) (hblank : ∀ gap ∈ gaps, Text.Blank gap.toList)
    (hkept : ∀ i, 0 < i → i + 1 < gaps.length → gaps[i]? = some "" →
      (ps.map Piece.gap)[i]? = some []) :
    Reads operandExpected (Piece.relay ps gaps) [] := by
  generalize hrest : ([] : List Char) = rest at h ⊢
  induction h generalizing gaps with
  | @last _ p rest hp hfinal =>
    obtain ⟨gap, rfl⟩ := List.length_eq_one_iff.mp hlength
    exact .last ⟨hblank gap (List.mem_singleton_self gap), hp.visible, hp.read_eq⟩ hfinal
  | @cons _ p ps rest hp hopen hreads ih =>
    subst hrest
    obtain ⟨gap, gaps, rfl⟩ := List.exists_cons_of_length_eq_add_one hlength
    obtain ⟨hgap, hgaps⟩ := List.forall_mem_cons.mp hblank
    have htail : gaps.length = ps.length := Nat.succ.inj hlength
    have hends := fun q hq => hend q (List.mem_cons_of_mem p hq)
    have hkept' : ∀ i, i + 1 < gaps.length → gaps[i]? = some "" →
        (ps.map Piece.gap)[i]? = some [] :=
      fun i hi => hkept (i + 1) (Nat.succ_pos i) (Nat.succ_lt_succ hi)
    -- The text after the piece changes, and the piece is read as before all the same.
    have hstops := hreads.stopsAs_relay hends htail hgaps hkept'
    rw [← List.append_nil (written ps), ← List.append_nil (written (Piece.relay ps gaps))] at hstops
    have hp' := hp.stays hopen hstops
    refine .cons ⟨hgap, hp'.visible, hp'.read_eq⟩ hopen ?_
    exact ih hends htail hgaps (fun i _ => hkept' i) rfl

theorem Reads.rest_eq_nil {rest : List Char} (h : Reads operandExpected ps rest)
    (hend : ∀ p ∈ ps, p.kind.isFinal = true → p.kind = .endOfInput) : rest = [] := by
  induction h with
  | @last _ p rest hp hfinal => exact hp.rest_eq_nil (hend p (List.mem_singleton_self p) hfinal)
  | @cons _ p ps rest _ _ _ ih => exact ih fun q hq => hend q (List.mem_cons_of_mem p hq)

end

/-- A source that is made up of pieces has their tokens, gaps and words. -/
theorem Reads.source_eq {ps : List Piece} {source : String} {rest : List Char}
    (h : Reads true ps rest) (hsource : source.toList = written ps ++ rest) :
    PredicateLang.tokens source = tokens 0 ps ∧
      Source.gaps source = ps.map (fun p => String.ofList p.gap) ∧
      Source.words source = ps.map fun p => String.ofList p.text := by
  have htokens : PredicateLang.tokens source = tokens 0 ps :=
    Scanner.tokensFrom_eq (s := .start source) h hsource rfl
  have hstart : source.toList = [] ++ (written ps ++ rest) := hsource
  rw [Source.gaps, Source.words, htokens]
  exact ⟨rfl, gapsFrom_tokens hstart⟩

end Piece

/-- A source whose last token is the end of input has no malformed token. -/
theorem eq_endOfInput_of_isFinal {source : String}
    (hend : (tokens source).getLast?.map Token.kind = some .endOfInput) :
    ∀ kind ∈ (tokens source).map Token.kind, kind.isFinal = true → kind = .endOfInput := by
  obtain ⟨ts, last, htokens, hends⟩ := exists_tokens_eq source
  rw [htokens, List.getLast?_concat] at hend
  have hlast : last.kind = .endOfInput := Option.some.inj hend
  rw [htokens, List.forall_mem_map]
  intro t ht hfinal
  rcases List.mem_append.mp ht with ht | ht
  · have hopen := hends.unfinished t ht
    rw [hopen] at hfinal
    cases hfinal
  · rwa [List.mem_singleton.mp ht]

/-- A source is made up of its gaps and words. Under every layout its tokens are of the same kinds
and have the same texts. -/
theorem Layout.tokens_text {source : String} (l : Layout source)
    (hend : (tokens source).getLast?.map Token.kind = some .endOfInput) :
    Source.interleave (Source.gaps source) (Source.words source) = source ∧
      (tokens l.text).map Token.kind = (tokens source).map Token.kind ∧
      Source.words l.text = Source.words source := by
  have hfinal := eq_endOfInput_of_isFinal hend
  obtain ⟨ps, rest, hsource, hreads, -⟩ := exists_pieces source
  obtain ⟨htokens, hgaps, hwords⟩ := hreads.source_eq hsource
  rw [htokens, Piece.map_kind_tokens, List.forall_mem_map] at hfinal
  obtain rfl := hreads.rest_eq_nil hfinal
  have hlength : l.gaps.length = ps.length := by
    have hkinds := congrArg List.length (Piece.map_kind_tokens 0 ps)
    rw [List.length_map, List.length_map, ← htokens] at hkinds
    rw [l.length_eq, hkinds]
  have hkept : ∀ i, 0 < i → i + 1 < l.gaps.length → l.gaps[i]? = some "" →
      (ps.map Piece.gap)[i]? = some [] := by
    intro i hi hlast hgap
    have hformer := l.separates i hi hlast hgap
    rw [hgaps, List.getElem?_map, Option.map_eq_some_iff] at hformer
    obtain ⟨p, hp, hnil⟩ := hformer
    rw [List.getElem?_map, hp, ← String.ofList_eq_empty_iff.mp hnil]
    rfl
  have htext : l.text.toList = Piece.written (Piece.relay ps l.gaps) ++ [] := by
    rw [Layout.text, hwords, Piece.toList_interleave, List.append_nil]
  obtain ⟨htokens', -, hwords'⟩ := (hreads.relay hfinal hlength l.blank hkept).source_eq htext
  refine ⟨?_, ?_, ?_⟩
  · rw [← String.toList_inj, hgaps, hwords, Piece.toList_interleave, Piece.relay_self, hsource,
      List.append_nil]
  · rw [htokens', htokens, Piece.map_kind_tokens, Piece.map_kind_tokens,
      Piece.map_relay (fun _ _ => rfl) hlength]
  · rw [hwords', hwords, Piece.map_relay (fun _ _ => rfl) hlength]

end PredicateLang
