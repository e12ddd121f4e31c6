import Mathlib.Data.List.Chain
import Mathlib.Logic.Function.Iterate
import PredicateLang.Proofs.Token.Piece

/-!
# Tokens tile the source

The spans of the tokens lie in the source in their order, on boundaries of
characters, and only white space stands before and between them. The source can be
told again from the excerpts of gaps and tokens, up to the end of the last token.
A scanner never stands inside a character.
-/

namespace PredicateLang

/-- The offset right after the span. -/
def Span.stop (span : Span) : Nat :=
  span.offset + span.length

namespace Source

/-- The byte offset lies in the source and not inside a character. -/
def IsBoundary (source : String) (offset : Nat) : Prop :=
  ∃ before after, splitAt? offset source.toList = some (before, after)

/-- Nothing but white space stands between two byte offsets, the first of which is not larger. -/
def BlankBetween (source : String) (start stop : Nat) : Prop :=
  start ≤ stop ∧ ∃ gap, (Span.mk start (stop - start)).excerpt? source = some gap ∧
    ∀ c ∈ gap.toList, Text.isBlank c = true

/-- The stretches of the source before, between and under the tokens, from an offset on. -/
def stretches (start : Nat) : List Token → List Span
  | [] => []
  | t :: ts => ⟨start, t.span.offset - start⟩ :: t.span :: stretches t.span.stop ts

/-- The excerpts of spans, one after the other. -/
def retell? (source : String) : List Span → Option (List Char)
  | [] => some []
  | span :: spans => do
    let text ← span.excerpt? source
    let more ← retell? source spans
    return text.toList ++ more

section
variable {source : String} {before covered gap after : List Char}

theorem isBoundary_byteSize (h : source.toList = before ++ after) :
    IsBoundary source (byteSize before) :=
  ⟨before, after, by rw [h, splitAt?_byteSize]⟩

theorem excerpt?_eq (h : source.toList = before ++ (covered ++ after)) :
    (Span.mk (byteSize before) (byteSize covered)).excerpt? source =
      some (String.ofList covered) := by
  rw [Span.excerpt?, h, splitAt?_byteSize]
  simp only [Option.bind_eq_bind, Option.bind_some, splitAt?_byteSize]
  rfl

theorem position?_eq {length : Nat} (h : source.toList = before ++ after) :
    (Span.mk (byteSize before) length).position? source = some (.after before) := by
  rw [Span.position?, h, splitAt?_byteSize]
  rfl

theorem blankBetween_of_blank (h : source.toList = before ++ (gap ++ after))
    (hblank : ∀ c ∈ gap, Text.isBlank c = true) :
    BlankBetween source (byteSize before) (byteSize before + byteSize gap) := by
  refine ⟨Nat.le_add_right _ _, String.ofList gap, ?_, by rwa [String.toList_ofList]⟩
  rw [Nat.add_sub_cancel_left]
  exact excerpt?_eq h

theorem byteSize_eq_zero_iff (text : List Char) : byteSize text = 0 ↔ text = [] := by
  cases text with
  | nil => simp
  | cons c text =>
    have hc := c.utf8Size_pos
    simp only [byteSize_cons, reduceCtorEq, iff_false]
    omega

end
end Source

/-- The span of the token can be cut out of the source and has a position, and it is empty at the
end of input only. -/
structure Token.LiesIn (source : String) (t : Token) : Prop where
  stop_le : t.span.stop ≤ Source.byteSize source.toList
  starts : Source.IsBoundary source t.span.offset
  stops : Source.IsBoundary source t.span.stop
  excerpt : ∃ text, t.span.excerpt? source = some text
  position : ∃ place, t.span.position? source = some place
  length_eq_zero_iff : t.span.length = 0 ↔ t.kind = .endOfInput
  span_endOfInput : t.kind = .endOfInput → t.span = ⟨Source.byteSize source.toList, 0⟩

/-- The tokens cover the source from its start to the end of the last one, white space apart. -/
structure Tiling (source : String) (ts : List Token) : Prop where
  liesIn : ∀ t ∈ ts, t.LiesIn source
  first : ∀ t ∈ ts.head?, Source.BlankBetween source 0 t.span.offset
  next : ts.IsChain fun t u => Source.BlankBetween source t.span.stop u.span.offset
  retold : ∃ last before after, ts.getLast? = some last ∧ source.toList = before ++ after ∧
    Source.byteSize before = last.span.stop ∧
    Source.retell? source (Source.stretches 0 ts) = some before ∧
    (last.kind = .endOfInput → before = source.toList)

namespace Piece

section
variable {source : String} {before rest : List Char} {p : Piece} {operandExpected : Bool}

theorem stop_token : (p.token (Source.byteSize before)).span.stop =
    Source.byteSize (before ++ (p.gap ++ p.text)) := by
  simp only [token, Span.stop, Source.byteSize_append, Nat.add_assoc]

theorem ReadBefore.liesIn (h : p.ReadBefore operandExpected rest)
    (hsource : source.toList = before ++ (p.gap ++ (p.text ++ rest))) :
    (p.token (Source.byteSize before)).LiesIn source := by
  have hspan : (p.token (Source.byteSize before)).span =
      ⟨Source.byteSize (before ++ p.gap), Source.byteSize p.text⟩ := by
    rw [token, Source.byteSize_append]
  have hat : source.toList = (before ++ p.gap) ++ (p.text ++ rest) := by
    rw [hsource, List.append_assoc]
  have hpast : source.toList = (before ++ (p.gap ++ p.text)) ++ rest := by
    simp only [hsource, List.append_assoc]
  constructor
  · rw [stop_token, hpast, Source.byteSize_append _ rest]
    exact Nat.le_add_right _ _
  · rw [hspan]
    exact Source.isBoundary_byteSize hat
  · rw [stop_token]
    exact Source.isBoundary_byteSize hpast
  · rw [hspan]
    exact ⟨_, Source.excerpt?_eq hat⟩
  · rw [hspan]
    exact ⟨_, Source.position?_eq hat⟩
  · rw [hspan, Source.byteSize_eq_zero_iff]
    exact h.text_eq_nil_iff
  · intro hkind
    rw [hspan, hat, h.text_eq_nil_iff.mpr hkind, h.rest_eq_nil hkind, List.append_nil,
      List.append_nil]
    rfl

theorem ReadBefore.blankBetween (h : p.ReadBefore operandExpected rest)
    (hsource : source.toList = before ++ (p.gap ++ (p.text ++ rest))) :
    Source.BlankBetween source (Source.byteSize before)
      (p.token (Source.byteSize before)).span.offset :=
  Source.blankBetween_of_blank hsource h.blank

end

section
variable {source : String} {before rest : List Char} {ps : List Piece} {operandExpected : Bool}

/-- The source as it is split after the first of its pieces. -/
theorem split_written_cons {p : Piece}
    (h : source.toList = before ++ (written (p :: ps) ++ rest)) :
    source.toList = before ++ (p.gap ++ (p.text ++ (written ps ++ rest))) ∧
      source.toList = (before ++ (p.gap ++ p.text)) ++ (written ps ++ rest) := by
  rw [h, written_cons]
  exact ⟨by simp only [List.append_assoc], by simp only [List.append_assoc]⟩

theorem Reads.liesIn (h : Reads operandExpected ps rest)
    (hsource : source.toList = before ++ (written ps ++ rest)) :
    ∀ t ∈ tokens (Source.byteSize before) ps, t.LiesIn source := by
  -- `before` grows by the first piece, so that the offsets stay sizes of what stands in front.
  induction h generalizing before with
  | last hp _ =>
    intro t ht
    obtain rfl := List.mem_singleton.mp ht
    exact hp.liesIn (split_written_cons hsource).1
  | cons hp _ _ ih =>
    obtain ⟨hat, hpast⟩ := split_written_cons hsource
    intro t ht
    rcases List.mem_cons.mp ht with rfl | ht
    · exact hp.liesIn hat
    · rw [← Source.byteSize_append] at ht
      exact ih hpast t ht

theorem Reads.blankBetween (h : Reads operandExpected ps rest)
    (hsource : source.toList = before ++ (written ps ++ rest)) :
    ∀ t ∈ (tokens (Source.byteSize before) ps).head?,
      Source.BlankBetween source (Source.byteSize before) t.span.offset := by
  intro t ht
  cases h with
  | last hp _ =>
    cases ht
    exact hp.blankBetween (split_written_cons hsource).1
  | cons hp _ _ =>
    cases ht
    exact hp.blankBetween (split_written_cons hsource).1

theorem Reads.isChain (h : Reads operandExpected ps rest)
    (hsource : source.toList = before ++ (written ps ++ rest)) :
    (tokens (Source.byteSize before) ps).IsChain
      fun t u => Source.BlankBetween source t.span.stop u.span.offset := by
  induction h generalizing before with
  | last => exact List.isChain_singleton _
  | cons _ _ hreads ih =>
    obtain ⟨_, hpast⟩ := split_written_cons hsource
    rw [tokens, ← Source.byteSize_append, List.isChain_cons, stop_token]
    exact ⟨hreads.blankBetween hpast, ih hpast⟩

theorem le_offset_of_mem_tokens {offset : Nat} {t : Token} (h : t ∈ tokens offset ps) :
    offset ≤ t.span.offset := by
  induction ps generalizing offset with
  | nil => cases h
  | cons p ps ih =>
    rcases List.mem_cons.mp h with rfl | h
    · exact Nat.le_add_right _ _
    · exact Nat.le_trans (Nat.le_add_right _ _) (ih h)

/-- A token that others follow takes up bytes, so these start after it does. -/
theorem Reads.pairwise_offset (h : Reads operandExpected ps rest) (offset : Nat) :
    (tokens offset ps).Pairwise fun t u => t.span.offset < u.span.offset := by
  induction h generalizing offset with
  | last => exact List.pairwise_singleton _ _
  | @cons _ p ps rest hp hopen _ ih =>
    refine List.pairwise_cons.mpr ⟨fun u hu => ?_, ih _⟩
    have hle := le_offset_of_mem_tokens hu
    have hsize : Source.byteSize p.text ≠ 0 := by
      intro hzero
      rw [Source.byteSize_eq_zero_iff, hp.text_eq_nil_iff] at hzero
      rw [hzero] at hopen
      cases hopen
    rw [Source.byteSize_append] at hle
    simp only [token]
    omega

/-- Gaps and tokens tell the pieces again. -/
theorem retell?_tokens (hsource : source.toList = before ++ (written ps ++ rest)) :
    Source.retell? source
      (Source.stretches (Source.byteSize before) (tokens (Source.byteSize before) ps)) =
        some (written ps) := by
  induction ps generalizing before with
  | nil => rfl
  | cons p ps ih =>
    obtain ⟨hat, hpast⟩ := split_written_cons hsource
    have hgap := Source.excerpt?_eq hat
    have htext : (Span.mk (Source.byteSize (before ++ p.gap)) (Source.byteSize p.text)).excerpt?
        source = some (String.ofList p.text) :=
      Source.excerpt?_eq (by rw [hat, List.append_assoc])
    have hspan : (p.token (Source.byteSize before)).span =
        ⟨Source.byteSize (before ++ p.gap), Source.byteSize p.text⟩ := by
      rw [token, Source.byteSize_append]
    have hoffset : (p.token (Source.byteSize before)).span.offset - Source.byteSize before =
        Source.byteSize p.gap := Nat.add_sub_cancel_left _ _
    have hmore := ih hpast
    rw [tokens, Source.stretches, hoffset, stop_token, ← Source.byteSize_append, hspan,
      Source.retell?, hgap, Source.retell?, htext, hmore]
    simp only [Option.bind_eq_bind, Option.bind_some, Option.pure_def, String.toList_ofList,
      written_cons]

theorem Reads.getLast?_tokens (h : Reads operandExpected ps rest) (before : List Char) :
    ∃ last, (tokens (Source.byteSize before) ps).getLast? = some last ∧
      last.span.stop = Source.byteSize (before ++ written ps) ∧
      (last.kind = .endOfInput → rest = []) := by
  induction h generalizing before with
  | @last _ p rest hp _ =>
    refine ⟨p.token (Source.byteSize before), rfl, ?_, hp.rest_eq_nil⟩
    rw [stop_token, written_cons, written_nil, List.append_nil]
  | @cons _ p ps rest _ _ hreads ih =>
    obtain ⟨last, hlast, hstop, hend⟩ := ih (before ++ (p.gap ++ p.text))
    refine ⟨last, ?_, ?_, hend⟩
    · rw [tokens, ← Source.byteSize_append, List.getLast?_cons, hlast]
      rfl
    · rw [hstop, written_cons]
      simp only [List.append_assoc]

end
end Piece

/-- The tokens of a source start one after another. -/
theorem pairwise_offset_tokens (source : String) :
    (tokens source).Pairwise fun t u => t.span.offset < u.span.offset := by
  obtain ⟨ps, rest, -, hreads, htokens⟩ := exists_pieces source
  rw [htokens]
  exact hreads.pairwise_offset 0

theorem liesIn_of_mem_tokens {source : String} {t : Token} (h : t ∈ tokens source) :
    t.LiesIn source := by
  obtain ⟨ps, rest, hsource, hreads, htokens⟩ := exists_pieces source
  have hstart : source.toList = [] ++ (Piece.written ps ++ rest) := hsource
  rw [htokens] at h
  exact hreads.liesIn hstart t h

namespace Scanner

/-- The scanner stands in the source between two characters. -/
def StandsIn (source : String) (s : Scanner) : Prop :=
  ∃ before, Source.splitAt? s.offset source.toList = some (before, s.rest)

theorem StandsIn.scan {source : String} {s : Scanner} (h : s.StandsIn source) :
    s.scan.2.StandsIn source := by
  obtain ⟨before, hsplit⟩ := h
  unfold Scanner.scan
  cases hf : s.failed with
  | some t => exact ⟨before, hsplit⟩
  | none =>
    obtain ⟨hsource, hsize⟩ := Source.append_of_splitAt? hsplit
    obtain ⟨p, rest, hs, hp⟩ := s.exists_piece
    obtain ⟨_, hrest, hoffset⟩ := advance_eq hp hs
    refine ⟨before ++ (p.gap ++ p.text), ?_⟩
    rw [hrest, hoffset, ← hsize, ← Source.byteSize_append, ← hsource, hs]
    rw [show before ++ (p.gap ++ (p.text ++ rest)) = (before ++ (p.gap ++ p.text)) ++ rest by
      simp only [List.append_assoc]]
    exact Source.splitAt?_byteSize _ _

/-- Reading on character by character stays on boundaries. -/
theorem StandsIn.isBoundary {source : String} {s : Scanner} (h : s.StandsIn source) (k : Nat) :
    Source.IsBoundary source (s.offset + Source.byteSize (s.rest.take k)) := by
  obtain ⟨before, hsplit⟩ := h
  obtain ⟨hsource, hsize⟩ := Source.append_of_splitAt? hsplit
  rw [← hsize, ← Source.byteSize_append]
  have hat : source.toList = (before ++ s.rest.take k) ++ s.rest.drop k := by
    rw [List.append_assoc, List.take_append_drop, hsource]
  exact Source.isBoundary_byteSize hat

theorem standsIn_iterate (source : String) (n : Nat) :
    ((fun s => s.scan.2)^[n] (start source)).StandsIn source := by
  induction n with
  | zero => exact ⟨[], Source.splitAt?_byteSize [] source.toList⟩
  | succ n ih =>
    rw [Function.iterate_succ_apply']
    exact ih.scan

end Scanner

/-- The tokens of a source tile it, and a scanner that reads them stands on a boundary after every
token, from where it reads on by whole characters. -/
theorem tokens_tiling (source : String) :
    Tiling source (tokens source) ∧
      ∀ n, let s := (fun s => s.scan.2)^[n] (Scanner.start source)
        s.StandsIn source ∧
          ∀ k, Source.IsBoundary source (s.offset + Source.byteSize (s.rest.take k)) := by
  constructor
  · obtain ⟨ps, rest, hsource, hreads, htokens⟩ := exists_pieces source
    rw [htokens]
    obtain ⟨last, hlast, hstop, hend⟩ := hreads.getLast?_tokens []
    have hstart : source.toList = [] ++ (Piece.written ps ++ rest) := hsource
    refine ⟨hreads.liesIn hstart, hreads.blankBetween hstart, hreads.isChain hstart, last,
      Piece.written ps, rest, hlast, hsource, hstop.symm, Piece.retell?_tokens hstart,
      fun hkind => ?_⟩
    rw [hsource, hend hkind, List.append_nil]
  · intro n
    exact ⟨Scanner.standsIn_iterate source n, (Scanner.standsIn_iterate source n).isBoundary⟩

end PredicateLang
