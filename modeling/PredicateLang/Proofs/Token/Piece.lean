import PredicateLang.Proofs.Token.Boundary
import PredicateLang.Proofs.Token.Stream

/-!
# The pieces of a text

Scanning cuts a text into pieces. Each is a token with the white space before it,
and what is read depends only on the characters from the token on and on whether
an operand is expected there. The tokens of a scanner are its pieces, put at their
byte offsets. Laws about spans and laws about characters can thereby be proved
apart from each other.
-/

namespace PredicateLang

/-- A token as it stands in a text, with the white space before it. -/
structure Piece where
  gap : List Char
  kind : TokenKind
  text : List Char

namespace Piece

/-- The piece is what is read off the front of itself and `rest`. -/
structure ReadBefore (p : Piece) (operandExpected : Bool) (rest : List Char) : Prop where
  blank : ∀ c ∈ p.gap, Text.isBlank c = true
  visible : ∀ c ∈ (p.text ++ rest).head?, Text.isBlank c = false
  read_eq : Lexeme.read operandExpected (p.text ++ rest) = ⟨p.kind, p.text, rest⟩

/-- The characters of the pieces in their order. -/
def written (ps : List Piece) : List Char :=
  ps.flatMap fun p => p.gap ++ p.text

@[simp] theorem written_nil : written [] = [] := rfl

@[simp] theorem written_cons (p : Piece) (ps : List Piece) :
    written (p :: ps) = p.gap ++ (p.text ++ written ps) :=
  List.append_assoc ..

/-- The pieces before `rest` are what a scanner cuts off, up to the first token that no other
follows. -/
inductive Reads : Bool → List Piece → List Char → Prop
  | last {operandExpected p rest} : p.ReadBefore operandExpected rest → p.kind.isFinal = true →
      Reads operandExpected [p] rest
  | cons {operandExpected p ps rest} : p.ReadBefore operandExpected (written ps ++ rest) →
      p.kind.isFinal = false → Reads (!p.kind.endsOperand) ps rest →
      Reads operandExpected (p :: ps) rest

/-- The token of a piece that starts at a byte offset. -/
def token (offset : Nat) (p : Piece) : Token :=
  ⟨p.kind, ⟨offset + Source.byteSize p.gap, Source.byteSize p.text⟩⟩

/-- The tokens of pieces that start at a byte offset. -/
def tokens : Nat → List Piece → List Token
  | _, [] => []
  | offset, p :: ps =>
    p.token offset :: tokens (offset + Source.byteSize (p.gap ++ p.text)) ps

theorem map_kind_tokens (offset : Nat) (ps : List Piece) :
    (tokens offset ps).map Token.kind = ps.map Piece.kind := by
  induction ps generalizing offset with
  | nil => rfl
  | cons p ps ih => exact congrArg (p.kind :: ·) (ih _)

section
variable {p : Piece} {operandExpected : Bool} {rest : List Char}

/-- The end of input is the one token without characters. -/
theorem ReadBefore.text_eq_nil_iff (h : p.ReadBefore operandExpected rest) :
    p.text = [] ↔ p.kind = .endOfInput := by
  have hread := Lexeme.read_readFrom operandExpected (p.text ++ rest)
  rw [h.read_eq] at hread
  constructor
  · intro hnil
    by_cases hrest : p.text ++ rest = []
    · have hkind := congrArg Lexeme.kind h.read_eq
      rw [hrest] at hkind
      exact hkind.symm
    · exact absurd hnil (hread.progress hrest)
  · intro hkind
    have hnil := Lexeme.eq_nil_of_read (by rw [h.read_eq]; exact hkind)
    exact (List.append_eq_nil_iff.mp hnil).1

/-- Nothing follows the end of input. -/
theorem ReadBefore.rest_eq_nil (h : p.ReadBefore operandExpected rest)
    (hkind : p.kind = .endOfInput) : rest = [] :=
  (List.append_eq_nil_iff.mp (Lexeme.eq_nil_of_read (by rw [h.read_eq]; exact hkind))).2

theorem ReadBefore.takeWhile_eq (h : p.ReadBefore operandExpected rest) :
    (p.gap ++ (p.text ++ rest)).takeWhile Text.isBlank = p.gap :=
  takeWhile_append_stop h.blank h.visible

theorem ReadBefore.dropWhile_eq (h : p.ReadBefore operandExpected rest) :
    (p.gap ++ (p.text ++ rest)).dropWhile Text.isBlank = p.text ++ rest :=
  dropWhile_append_stop h.blank h.visible

/-- A token stays one before every text that stops it as the former text did. -/
theorem ReadBefore.stays {rest' : List Char} (h : p.ReadBefore operandExpected rest)
    (hkind : p.kind.isFinal = false) (hrest : Lexeme.StopsAs rest' rest) :
    p.ReadBefore operandExpected rest' := by
  have hread := h.read_eq
  have hfinal : (Lexeme.read operandExpected (p.text ++ rest)).kind.isFinal = false := by
    rw [hread]
    exact hkind
  have hstops : Lexeme.StopsAs rest' (Lexeme.read operandExpected (p.text ++ rest)).rest := by
    rw [hread]
    exact hrest
  have hstays := Lexeme.read_stays hfinal hstops
  rw [hread] at hstays
  refine ⟨h.blank, ?_, hstays⟩
  -- The text is not empty, so its first character is the one that ends the gap.
  have hvisible := h.visible
  cases htext : p.text with
  | nil =>
    rw [h.text_eq_nil_iff.mp htext] at hkind
    cases hkind
  | cons c text =>
    rw [htext] at hvisible
    exact hvisible

end
end Piece

namespace Scanner

/-- The next token of a scanner is a piece at the front of what it has not read. -/
theorem exists_piece (s : Scanner) :
    ∃ p rest, s.rest = p.gap ++ (p.text ++ rest) ∧ Piece.ReadBefore p s.operandExpected rest := by
  let lexeme := Lexeme.read s.operandExpected (s.rest.dropWhile Text.isBlank)
  have happend : lexeme.text ++ lexeme.rest = s.rest.dropWhile Text.isBlank :=
    (Lexeme.read_readFrom s.operandExpected (s.rest.dropWhile Text.isBlank)).append
  refine ⟨⟨s.rest.takeWhile Text.isBlank, lexeme.kind, lexeme.text⟩, lexeme.rest, ?_, ?_, ?_, ?_⟩
  · rw [happend, List.takeWhile_append_dropWhile]
  · exact takeWhile_spec Text.isBlank s.rest
  · rw [happend]
    exact head?_dropWhile_spec Text.isBlank s.rest
  · rw [happend]

section
variable {s : Scanner} {p : Piece} {rest : List Char}

/-- Reading a piece moves the scanner past it. -/
theorem advance_eq (h : p.ReadBefore s.operandExpected rest)
    (hs : s.rest = p.gap ++ (p.text ++ rest)) :
    s.advance.1 = p.token s.offset ∧ s.advance.2.rest = rest ∧
      s.advance.2.offset = s.offset + Source.byteSize (p.gap ++ p.text) := by
  have hread : Lexeme.read s.operandExpected (s.rest.dropWhile Text.isBlank) =
      ⟨p.kind, p.text, rest⟩ := by
    rw [hs, h.dropWhile_eq, h.read_eq]
  have hgap : s.rest.takeWhile Text.isBlank = p.gap := by
    rw [hs, h.takeWhile_eq]
  simp only [advance, hread, hgap, Source.byteSize_append, Piece.token, ← Nat.add_assoc]
  cases p.kind <;> exact ⟨rfl, rfl, rfl⟩

/-- A piece that is no end leaves a scanner that goes on. -/
theorem operandExpected_advance (h : p.ReadBefore s.operandExpected rest)
    (hs : s.rest = p.gap ++ (p.text ++ rest)) (hkind : p.kind.isFinal = false) :
    s.advance.2.operandExpected = !p.kind.endsOperand := by
  have hread : (Lexeme.read s.operandExpected (s.rest.dropWhile Text.isBlank)).kind = p.kind := by
    rw [hs, h.dropWhile_eq, h.read_eq]
  simp only [advance, hread]
  cases hk : p.kind with
  | malformed x => rw [hk] at hkind; cases hkind
  | _ => rfl

end

/-- The tokens of a scanner are its pieces from its offset on. -/
theorem tokensFrom_eq {s : Scanner} {ps : List Piece} {rest : List Char}
    (h : Piece.Reads s.operandExpected ps rest) (hs : s.rest = Piece.written ps ++ rest)
    (hfailed : s.failed = none) : s.tokensFrom = Piece.tokens s.offset ps := by
  generalize hexpected : s.operandExpected = operandExpected at h
  induction h generalizing s with
  | @last _ p rest hp hfinal =>
    subst hexpected
    rw [Piece.written_cons, Piece.written_nil, List.append_nil, List.append_assoc] at hs
    obtain ⟨htoken, _, _⟩ := advance_eq hp hs
    rw [tokensFrom, hfailed]
    simp only [htoken]
    exact if_pos hfinal
  | @cons _ p ps rest hp hopen _ ih =>
    subst hexpected
    rw [Piece.written_cons, List.append_assoc, List.append_assoc] at hs
    obtain ⟨htoken, hrest, hoffset⟩ := advance_eq hp hs
    have hfinal : s.advance.1.kind.isFinal = false := by rw [htoken]; exact hopen
    rw [tokensFrom, hfailed]
    simp only [hfinal, Bool.false_eq_true, if_false]
    rw [ih hrest ((failed_advance hfinal).trans hfailed) (operandExpected_advance hp hs hopen),
      htoken, hoffset]
    rfl

/-- Every scanner that has not failed has pieces. -/
theorem exists_reads (s : Scanner) (hfailed : s.failed = none) :
    ∃ ps rest, s.rest = Piece.written ps ++ rest ∧ Piece.Reads s.operandExpected ps rest := by
  fun_induction tokensFrom s with
  | case1 s token h => rw [hfailed] at h; cases h
  | case2 s _ hfinal =>
    obtain ⟨p, rest, hs, hp⟩ := s.exists_piece
    obtain ⟨htoken, _, _⟩ := advance_eq hp hs
    rw [htoken] at hfinal
    refine ⟨[p], rest, ?_, .last hp hfinal⟩
    rw [hs, Piece.written_cons, Piece.written_nil, List.append_nil, List.append_assoc]
  | case3 s _ hopen ih =>
    have hopen := Bool.eq_false_iff.mpr hopen
    obtain ⟨p, rest, hs, hp⟩ := s.exists_piece
    obtain ⟨htoken, hrest, _⟩ := advance_eq hp hs
    have hkind : p.kind.isFinal = false := by rw [htoken] at hopen; exact hopen
    obtain ⟨ps, rest', hwritten, hreads⟩ := ih ((failed_advance hopen).trans hfailed)
    rw [hrest] at hwritten
    rw [operandExpected_advance hp hs hkind] at hreads
    subst hwritten
    refine ⟨p :: ps, rest', ?_, .cons hp hkind hreads⟩
    rw [hs, Piece.written_cons, List.append_assoc, List.append_assoc]

end Scanner

/-- A source has pieces, and its tokens are these from its start on. -/
theorem exists_pieces (source : String) :
    ∃ ps rest, source.toList = Piece.written ps ++ rest ∧ Piece.Reads true ps rest ∧
      tokens source = Piece.tokens 0 ps := by
  obtain ⟨ps, rest, hs, hreads⟩ := (Scanner.start source).exists_reads rfl
  exact ⟨ps, rest, hs, hreads, Scanner.tokensFrom_eq (s := .start source) hreads hs rfl⟩

end PredicateLang
