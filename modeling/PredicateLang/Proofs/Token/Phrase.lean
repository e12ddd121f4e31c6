import Mathlib.Data.List.Basic
import PredicateLang.Proofs.Token.Piece

/-!
# Phrases

Words that are tokens by themselves stay tokens when they are written in a row
with white space between them. Whether a word is one token can depend on the word
before it, since a sign belongs to a number only where an operand is expected. So
a phrase keeps track of what is expected before and after its words.
-/

namespace PredicateLang

/-- White space and nothing else. -/
def Text.Blank (text : List Char) : Prop :=
  ∀ c ∈ text, isBlank c = true

theorem Text.Blank.nil : Blank [] :=
  fun _ hc => by cases hc

theorem Text.Blank.space : Blank [' '] :=
  List.forall_mem_singleton.mpr rfl

theorem Text.Blank.append {text text' : List Char} (h : Blank text) (h' : Blank text') :
    Blank (text ++ text') := by
  intro c hc
  rcases List.mem_append.mp hc with hc | hc
  · exact h c hc
  · exact h' c hc

theorem Text.Blank.head? {text : List Char} (h : Blank text) :
    ∀ c ∈ text.head?, isBlank c = true :=
  fun c hc => h c (List.mem_of_mem_head? hc)

/-- The word is read as one token of the kind, and would be so before white space too. -/
def IsToken (operandExpected : Bool) (word : List Char) (kind : TokenKind) : Prop :=
  kind.isFinal = false ∧ ∃ p after, word = p.gap ++ (p.text ++ after) ∧ Text.Blank after ∧
    p.kind = kind ∧ Piece.ReadBefore p operandExpected after

/-- The words are read as tokens of the kinds, one after the other. The first flag tells whether an
operand is expected before the words, the second whether one is expected after them. -/
inductive Phrase : Bool → List (List Char) → List TokenKind → Bool → Prop
  | nil {expected} : Phrase expected [] [] expected
  | cons {expected expected' word words kind kinds} : IsToken expected word kind →
      Phrase (!kind.endsOperand) words kinds expected' →
      Phrase expected (word :: words) (kind :: kinds) expected'

/-- The words in a row, with white space after all but the last, where it may be missing. -/
inductive Spaced : List (List Char) → List Char → Prop
  | last {word after} : Text.Blank after → Spaced [word] (word ++ after)
  | cons {word gap words text} : gap ≠ [] → Text.Blank gap → Spaced words text →
      Spaced (word :: words) (word ++ (gap ++ text))

theorem IsToken.of_read {expected : Bool} {word : List Char} {kind : TokenKind}
    (hkind : kind.isFinal = false) (hvisible : word.head?.any Text.isBlank = false)
    (hread : Lexeme.read expected word = ⟨kind, word, []⟩) : IsToken expected word kind := by
  refine ⟨hkind, ⟨[], kind, word⟩, [], (List.append_nil word).symm, .nil, rfl,
    Text.Blank.nil, ?_, ?_⟩
  · rw [List.append_nil]
    exact any_head?_eq_false_iff.mp hvisible
  · rwa [List.append_nil]

/-- A text of one token and white space is a token wherever an operand is expected. -/
theorem IsToken.of_tokens {word : List Char} {kind : TokenKind} (hkind : kind.isFinal = false)
    (h : (tokens (String.ofList word)).map Token.kind = [kind, .endOfInput]) :
    IsToken true word kind := by
  obtain ⟨ps, rest, hword, hreads, htokens⟩ := exists_pieces (String.ofList word)
  rw [htokens, Piece.map_kind_tokens] at h
  obtain ⟨p, ps, rfl, rfl, hps⟩ := List.map_eq_cons_iff.mp h
  obtain ⟨q, rfl, hq⟩ := List.map_eq_singleton_iff.mp hps
  cases hreads with
  | cons hp _ hreads =>
    cases hreads with
    | cons _ _ hnil => cases hnil
    | last hend _ =>
      have htext := hend.text_eq_nil_iff.mpr hq
      have hrest := hend.rest_eq_nil hq
      have hafter : Piece.written [q] ++ rest = q.gap := by
        rw [hrest, Piece.written_cons, Piece.written_nil, htext, List.append_nil, List.append_nil,
          List.append_nil]
      rw [hafter] at hp
      refine ⟨hkind, p, q.gap, ?_, hend.blank, rfl, hp⟩
      rw [String.toList_ofList, Piece.written_cons, List.append_assoc, List.append_assoc, hafter]
        at hword
      exact hword

/-- A token may have more white space before it, and any white space after it. -/
theorem IsToken.exists_piece {expected : Bool} {word lead : List Char} {kind : TokenKind}
    (h : IsToken expected word kind) (hlead : Text.Blank lead) :
    ∃ p after, lead ++ word = p.gap ++ (p.text ++ after) ∧ Text.Blank after ∧ p.kind = kind ∧
      ∀ rest, (∀ c ∈ rest.head?, Text.isBlank c = true) → Piece.ReadBefore p expected rest := by
  obtain ⟨hkind, p, after, rfl, hafter, rfl, hp⟩ := h
  refine ⟨⟨lead ++ p.gap, p.kind, p.text⟩, after, (List.append_assoc ..).symm, hafter, rfl, ?_⟩
  intro rest hrest
  have hp' := hp.stays hkind (.of_blank hrest after)
  exact ⟨hlead.append hp'.blank, hp'.visible, hp'.read_eq⟩

/-- A letter or underscore, and then letters, digits and underscores. Reserved words are no
names. -/
def IsName (name : String) : Prop :=
  (∃ c cs, name.toList = c :: cs ∧ Lexeme.startsName c = true ∧
    ∀ d ∈ cs, Lexeme.continuesName d = true) ∧
  name ≠ "true" ∧ name ≠ "false" ∧ name ≠ "nil"

theorem IsToken.symbol (s : Symbol) (expected : Bool) :
    IsToken expected s.text.toList (.symbol s) := by
  refine .of_read rfl ?_ ?_
  · cases s <;> decide
  · cases s <;> cases expected <;> rfl

theorem IsToken.name {name : String} (h : IsName name) (expected : Bool) :
    IsToken expected name.toList (.identifier name) := by
  obtain ⟨⟨c, cs, hname, hc, hcs⟩, htrue, hfalse, hnil⟩ := h
  have hall : ∀ d ∈ c :: cs, Lexeme.continuesName d = true := by
    intro d hd
    rcases List.mem_cons.mp hd with rfl | hd
    · exact Lexeme.continuesName_of_startsName hc
    · exact hcs d hd
  have hkind : Lexeme.wordKind (c :: cs) = .identifier name := by
    rw [← hname, Lexeme.wordKind]
    simp only [String.toList_inj, htrue, hfalse, hnil, if_false, String.ofList_toList]
  have hword : Lexeme.word (c :: cs) = ⟨.identifier name, c :: cs, []⟩ := by
    have htake := List.takeWhile_eq_self_iff.mpr hall
    have hdrop := List.dropWhile_eq_nil_iff.mpr hall
    simp only [Lexeme.word, htake, hdrop, hkind, List.head?_nil, reduceCtorEq, and_false, if_false]
  rw [hname]
  refine .of_read rfl ?_ ?_
  · exact Lexeme.visible_continuesName.isBlank_eq_false (Lexeme.continuesName_of_startsName hc)
  · rw [Lexeme.read_name hc, hword]

theorem IsToken.string {s : String} {text : List Char} (h : Quotation.SpellsAll s.toList text)
    (expected : Bool) : IsToken expected ('"' :: (text ++ ['"'])) (.string s) := by
  have hread : Lexeme.read expected ('"' :: (text ++ ['"'])) = Lexeme.quotation (text ++ ['"']) := by
    cases expected <;> rfl
  refine .of_read rfl rfl ?_
  rw [hread, Lexeme.quotation, Quotation.read_eq_of_spellsAll h []]
  simp only [String.ofList_toList]

namespace Phrase

theorem single {expected : Bool} {word : List Char} {kind : TokenKind}
    (h : IsToken expected word kind) : Phrase expected [word] [kind] (!kind.endsOperand) :=
  .cons h .nil

theorem append {before between after : Bool} {words words' : List (List Char)}
    {kinds kinds' : List TokenKind} (h : Phrase before words kinds between)
    (h' : Phrase between words' kinds' after) :
    Phrase before (words ++ words') (kinds ++ kinds') after := by
  induction h with
  | nil => exact h'
  | cons hword _ ih => exact .cons hword (ih h')

theorem length_eq {before after : Bool} {words : List (List Char)} {kinds : List TokenKind}
    (h : Phrase before words kinds after) : words.length = kinds.length := by
  induction h with
  | nil => rfl
  | cons _ _ ih => rw [List.length_cons, List.length_cons, ih]

/-- The pieces of a spaced phrase are its words, and the end of input after them. -/
theorem exists_pieces {before after : Bool} {words : List (List Char)} {kinds : List TokenKind}
    {text lead : List Char} (h : Phrase before words kinds after) (hspaced : Spaced words text)
    (hlead : Text.Blank lead) :
    ∃ ps, lead ++ text = Piece.written ps ∧ Piece.Reads before ps [] ∧
      ps.map Piece.kind = kinds ++ [.endOfInput] := by
  -- the white space around a word goes into the gap of its piece and of the next one
  induction hspaced generalizing before kinds lead with
  | @last word trail htrail =>
    cases h with
    | cons hword hnil =>
      cases hnil
      obtain ⟨p, rest, hlead', hrest, rfl, hp⟩ := hword.exists_piece hlead
      have hgap := hrest.append htrail
      have hend : Piece.ReadBefore ⟨rest ++ trail, .endOfInput, []⟩ (!p.kind.endsOperand) [] :=
        ⟨hgap, fun _ hc => (by cases hc), rfl⟩
      refine ⟨[p, ⟨rest ++ trail, .endOfInput, []⟩], ?_, .cons ?_ hword.1 (.last hend rfl), rfl⟩
      · rw [← List.append_assoc, hlead']
        simp only [Piece.written_cons, Piece.written_nil, List.append_assoc, List.append_nil]
      · simp only [Piece.written_cons, Piece.written_nil, List.append_nil]
        exact hp _ hgap.head?
  | @cons word gap words text hgap hblank hspaced ih =>
    cases h with
    | cons hword hwords =>
      obtain ⟨p, rest, hlead', hrest, rfl, hp⟩ := hword.exists_piece hlead
      obtain ⟨ps, hwritten, hreads, hkinds⟩ := ih hwords (hrest.append hblank)
      refine ⟨p :: ps, ?_, .cons ?_ hword.1 hreads, ?_⟩
      · rw [← List.append_assoc, hlead', Piece.written_cons, ← hwritten]
        simp only [List.append_assoc]
      · rw [← hwritten, List.append_nil]
        refine hp _ fun c hc => (hrest.append hblank).head? c ?_
        have hne : rest ++ gap ≠ [] := fun hnil => hgap (List.append_eq_nil_iff.mp hnil).2
        rwa [List.head?_append_of_ne_nil _ hne] at hc
      · rw [List.map_cons, hkinds]
        rfl

end Phrase

/-- The tokens of a spaced phrase are its words. -/
theorem Phrase.map_kind_tokens {words : List (List Char)} {kinds : List TokenKind} {after : Bool}
    {lead text : List Char} (h : Phrase true words kinds after) (hspaced : Spaced words text)
    (hlead : Text.Blank lead) :
    (tokens (String.ofList (lead ++ text))).map Token.kind = kinds ++ [.endOfInput] := by
  obtain ⟨ps, hwritten, hreads, hkinds⟩ := h.exists_pieces hspaced hlead
  have hstart : (Scanner.start (String.ofList (lead ++ text))).rest = Piece.written ps ++ [] := by
    rw [List.append_nil, ← hwritten]
    exact String.toList_ofList
  rw [tokens, Scanner.tokensFrom_eq hreads hstart rfl, Piece.map_kind_tokens, hkinds]

end PredicateLang
