import PredicateLang.Proofs.Grammar.Source
import PredicateLang.Proofs.Token.Tiling

/-!
# Scanner and parser expect the same

The scanner takes a sign for a part of a number where it expects an operand, and
it decides this when it reads the token, ahead of the parser. Here a window also
keeps what its scanner expected of each token, and every token that the parser
asked for with the part that the token was to play. In no parse do the two
disagree, so a sign is what the grammar needs at its place.
-/

namespace PredicateLang

/-- Whether a token in this role starts an operand. -/
def Role.wantsOperand : Role → Bool
  | .operand => true
  | .operator => false

/-- The role that the grammar has for a token after one of this kind. -/
def TokenKind.nextRole (kind : TokenKind) : Role :=
  if kind.endsOperand then .operator else .operand

theorem TokenKind.wantsOperand_nextRole (kind : TokenKind) :
    kind.nextRole.wantsOperand = !kind.endsOperand := by
  unfold nextRole
  cases kind.endsOperand <;> rfl

/-- A token that the parser asked for, and whether the scanner expected an operand when it read
it. -/
structure Sighting where
  role : Role
  token : Token
  operandExpected : Bool

/-- A window, what its scanner expected of each token ahead, and the sightings so far, the latest
first. -/
structure Watch where
  window : Window
  expectations : List Bool
  sightings : List Sighting

namespace Watch

/-- The watch over a window at the start of a source. -/
def start (source : String) : Watch :=
  ⟨.start source, [], []⟩

/-- Whether an operand was expected when the upcoming token was read. A token that is not ahead
is going to be read now. -/
def expectation (w : Watch) : Bool :=
  w.expectations.headD w.window.scanner.operandExpected

instance : TokenSource Watch where
  peek role _ w :=
    let r := w.window.upcoming 0
    (r.1, ⟨r.2, w.expectation :: w.expectations.tail,
      ⟨role, r.1, w.expectation⟩ :: w.sightings⟩)
  next role _ w :=
    let r := w.window.next
    (r.1, ⟨r.2, w.expectations.tail, ⟨role, r.1, w.expectation⟩ :: w.sightings⟩)

/-- Watching does not change what is handed out. -/
theorem sameTokens_window : SameTokens window :=
  ⟨fun _ _ _ => rfl, fun _ _ _ => rfl⟩

end Watch

namespace Window

variable {w : Window} {t : Token}

theorem upcoming_of_nil (h : w.ahead = []) : w.upcoming 0 = (w.scanner.scan.1, w.fetch) := by
  have hreach : w.reach 0 = w.fetch := by
    rw [reach, h]
    rfl
  refine Prod.ext ?_ hreach
  rw [(w.upcoming_eq 0).1, stream, h]
  rfl

theorem upcoming_of_singleton (h : w.ahead = [t]) : w.upcoming 0 = (t, w) := by
  have hreach : w.reach 0 = w := by
    rw [reach, h]
    rfl
  refine Prod.ext ?_ hreach
  rw [(w.upcoming_eq 0).1, stream, h]
  rfl

theorem next_of_nil (h : w.ahead = []) : w.next = w.scan := by
  simp only [next, h]

theorem next_of_singleton (h : w.ahead = [t]) : w.next = (t, { w with ahead := [] }) := by
  simp only [next, h]

end Window

/-- The token is what is read in the source at its span, if an operand is expected there or not. -/
def Token.ReadIn (source : String) (operandExpected : Bool) (t : Token) : Prop :=
  ∃ before covered rest, source.toList = before ++ (covered ++ rest) ∧
    t.span = ⟨Source.byteSize before, Source.byteSize covered⟩ ∧
    Lexeme.read operandExpected (covered ++ rest) = ⟨t.kind, covered, rest⟩

/-- The scanner stands in the source, has not failed, and expects a token in this role. -/
structure Scanner.Expects (source : String) (role : Role) (s : Scanner) : Prop where
  standsIn : s.StandsIn source
  failed : s.failed = none
  expected : s.operandExpected = role.wantsOperand

/-- A scanner that has the right expectation reads the token accordingly, and then expects what
the grammar has after the token. -/
theorem Scanner.Expects.scan {source : String} {role : Role} {s : Scanner}
    (h : s.Expects source role) :
    s.scan.1.ReadIn source role.wantsOperand ∧
      (s.scan.1.kind.isFinal = false → s.scan.2.Expects source s.scan.1.kind.nextRole) := by
  have hscan : s.scan = s.advance := by simp only [Scanner.scan, h.failed]
  obtain ⟨before, hsplit⟩ := h.standsIn
  obtain ⟨hsource, hsize⟩ := Source.append_of_splitAt? hsplit
  obtain ⟨p, rest, hs, hp⟩ := s.exists_piece
  obtain ⟨htoken, _, _⟩ := Scanner.advance_eq hp hs
  constructor
  · refine ⟨before ++ p.gap, p.text, rest, ?_, ?_, ?_⟩
    · rw [← hsource, hs, List.append_assoc]
    · rw [hscan, htoken, Piece.token, Source.byteSize_append, hsize]
    · rw [hscan, htoken, ← h.expected, hp.read_eq]
      rfl
  · intro hopen
    have hstands := h.standsIn.scan
    rw [hscan] at hopen hstands ⊢
    have hkind : p.kind.isFinal = false := by rw [htoken] at hopen; exact hopen
    refine ⟨hstands, (Scanner.failed_advance hopen).trans h.failed, ?_⟩
    rw [Scanner.operandExpected_advance hp hs hkind, TokenKind.wantsOperand_nextRole, htoken]
    rfl

namespace Watch

/-- The token is ahead, was read in this role, and the scanner expects what comes after it. -/
structure Holds (source : String) (role : Role) (t : Token) (w : Watch) : Prop where
  ahead : w.window.ahead = [t]
  expectations : w.expectations = [role.wantsOperand]
  readIn : t.ReadIn source role.wantsOperand
  after : t.kind.isFinal = false → w.window.scanner.Expects source t.kind.nextRole

/-- Nothing is ahead, and the scanner expects a token in this role. -/
structure Awaits (source : String) (role : Role) (w : Watch) : Prop where
  ahead : w.window.ahead = []
  expectations : w.expectations = []
  scanner : w.window.scanner.Expects source role

/-- The upcoming token was read in this role or is going to be. -/
def Ready (source : String) (role : Role) (w : Watch) : Prop :=
  w.Awaits source role ∨ ∃ t, w.Holds source role t

theorem start_awaits (source : String) : (start source).Awaits source .operand :=
  ⟨rfl, rfl, ⟨[], Source.splitAt?_byteSize [] source.toList⟩, rfl, rfl⟩

variable {source : String} {role : Role} {w : Watch} {t : Token}

theorem Awaits.expectation_eq (h : w.Awaits source role) :
    w.expectation = role.wantsOperand := by
  rw [expectation, h.expectations, List.headD_nil, h.scanner.expected]

theorem Holds.expectation_eq (h : w.Holds source role t) :
    w.expectation = role.wantsOperand := by
  rw [expectation, h.expectations, List.headD_cons]

/-- The watch with one more sighting, of a token of which the scanner had the right expectation. -/
def sight (role : Role) (t : Token) (expectations : List Bool) (window : Window) (w : Watch) :
    Watch :=
  ⟨window, expectations, ⟨role, t, role.wantsOperand⟩ :: w.sightings⟩

theorem Awaits.peek_eq (active : List Rule) (h : w.Awaits source role) :
    TokenSource.peek role active w =
      (w.window.scanner.scan.1, w.sight role w.window.scanner.scan.1 [role.wantsOperand]
        w.window.fetch) := by
  simp only [TokenSource.peek, Window.upcoming_of_nil h.ahead, h.expectation_eq, h.expectations,
    List.tail_nil, sight]

theorem Holds.peek_eq (active : List Rule) (h : w.Holds source role t) :
    TokenSource.peek role active w = (t, w.sight role t [role.wantsOperand] w.window) := by
  simp only [TokenSource.peek, Window.upcoming_of_singleton h.ahead, h.expectation_eq,
    h.expectations, List.tail_cons, sight]

theorem Awaits.next_eq (active : List Rule) (h : w.Awaits source role) :
    TokenSource.next role active w =
      (w.window.scanner.scan.1, w.sight role w.window.scanner.scan.1 [] w.window.scan.2) := by
  simp only [TokenSource.next, Window.next_of_nil h.ahead, h.expectation_eq, h.expectations,
    List.tail_nil, sight]
  rfl

theorem Holds.next_eq (active : List Rule) (h : w.Holds source role t) :
    TokenSource.next role active w = (t, w.sight role t [] { w.window with ahead := [] }) := by
  simp only [TokenSource.next, Window.next_of_singleton h.ahead, h.expectation_eq,
    h.expectations, List.tail_cons, sight]

/-- The scanner expected of every token that was asked for what the parser wanted of it, and read it
accordingly. -/
def Sound (source : String) (w : Watch) : Prop :=
  ∀ s ∈ w.sightings, s.operandExpected = s.role.wantsOperand ∧
    s.token.ReadIn source s.operandExpected

theorem Sound.sight (h : w.Sound source) (ht : t.ReadIn source role.wantsOperand)
    (expectations : List Bool) (window : Window) :
    (w.sight role t expectations window).Sound source := by
  intro s hs
  rcases List.mem_cons.mp hs with rfl | hs
  · exact ⟨rfl, ht⟩
  · exact h s hs

/-- Looking at the upcoming token keeps it ahead. -/
theorem Ready.peek (h : w.Ready source role) (active : List Rule) (hw : w.Sound source) :
    ∃ t w', TokenSource.peek role active w = (t, w') ∧ w'.Holds source role t ∧ w'.Sound source := by
  rcases h with h | ⟨t, h⟩
  · obtain ⟨hread, hafter⟩ := h.scanner.scan
    have hahead : w.window.fetch.ahead = [w.window.scanner.scan.1] :=
      congrArg (· ++ [w.window.scanner.scan.1]) h.ahead
    exact ⟨_, _, h.peek_eq active, ⟨hahead, rfl, hread, hafter⟩, hw.sight hread _ _⟩
  · exact ⟨_, _, h.peek_eq active, ⟨h.ahead, rfl, h.readIn, h.after⟩, hw.sight h.readIn _ _⟩

theorem Holds.next (h : w.Holds source role t) (active : List Rule) (hw : w.Sound source) :
    ∃ w', TokenSource.next role active w = (t, w') ∧ w'.Sound source ∧
      (t.kind.isFinal = false → w'.Awaits source t.kind.nextRole) :=
  ⟨_, h.next_eq active, hw.sight h.readIn _ _, fun hopen => ⟨rfl, rfl, h.after hopen⟩⟩

/-- After a token that is not the last the scanner expects what the grammar has there. -/
theorem Ready.next (h : w.Ready source role) (active : List Rule) (hw : w.Sound source) :
    ∃ t w', TokenSource.next role active w = (t, w') ∧ w'.Sound source ∧
      (t.kind.isFinal = false → w'.Awaits source t.kind.nextRole) := by
  rcases h with h | ⟨t, h⟩
  · obtain ⟨hread, hafter⟩ := h.scanner.scan
    exact ⟨_, _, h.next_eq active, hw.sight hread _ _, fun hopen => ⟨h.ahead, rfl, hafter hopen⟩⟩
  · exact ⟨t, h.next active hw⟩

end Watch

theorem TokenKind.nextRole_of_operator? {l : Level} {k : TokenKind} {op : BinaryOp}
    (h : l.operator? k = some op) : k.isFinal = false ∧ k.nextRole = .operand := by
  cases k with
  | symbol c =>
    cases c with
    | rightParen => cases l <;> cases h
    | _ => exact ⟨rfl, rfl⟩
  | _ => cases l <;> cases h

theorem TokenKind.nextRole_of_primary? {k : TokenKind} {e : Expr} (h : k.primary? = some e) :
    k.isFinal = false ∧ k.nextRole = .operator := by
  cases k with
  | endOfInput | malformed | symbol => cases h
  | _ => exact ⟨rfl, rfl⟩

namespace ParseM

open Watch (Sound Ready Holds)

variable {α β : Type} {source : String} {role : Role}

/-- From a watch that satisfies `P` the step makes sound sightings only, and if it does not fail, its
value and the watch after it satisfy `Q`. -/
def Keeps (source : String) (P : Watch → Prop) (x : ParseM Watch α) (Q : α → Watch → Prop) : Prop :=
  ∀ p, P p.tokens → p.tokens.Sound source →
    (x p).2.tokens.Sound source ∧ ∀ a, (x p).1 = .ok a → Q a (x p).2.tokens

namespace Keeps

variable {P : Watch → Prop} {Q : α → Watch → Prop} {R : β → Watch → Prop}

theorem pure {a : α} (h : ∀ w, P w → Q a w) : Keeps source P (Pure.pure a) Q := by
  intro p hp hw
  refine ⟨hw, fun b hb => ?_⟩
  cases hb
  exact h _ hp

theorem fail (fault : ParseFault) (token : Token) : Keeps source P (ParseM.fail fault token) Q := by
  intro p _ hw
  exact ⟨hw, fun a ha => by cases ha⟩

theorem bind {x : ParseM Watch α} {k : α → ParseM Watch β} (h : Keeps source P x Q)
    (hk : ∀ a, Keeps source (Q a) (k a) R) : Keeps source P (x >>= k) R := by
  intro p hp hw
  obtain ⟨hw', hq⟩ := h p hp hw
  rw [bind_apply]
  rcases hx : x p with ⟨e | a, p'⟩
  · rw [hx] at hw'
    exact ⟨hw', fun b hb => by cases hb⟩
  · rw [hx] at hw' hq
    exact hk a p' (hq a rfl) hw'

theorem within (r : Rule) {x : ParseM Watch α} (h : Keeps source P x Q) :
    Keeps source P (ParseM.within r x) Q :=
  fun p hp hw => h { p with active := r :: p.active } hp hw

theorem weaken {P' : Watch → Prop} {x : ParseM Watch α} (h : Keeps source P x Q)
    (hp : ∀ w, P' w → P w) : Keeps source P' x Q :=
  fun p hp' hw => h p (hp _ hp') hw

theorem peek : Keeps source (Ready source role) (ParseM.peek role)
    fun t w => w.Holds source role t := by
  intro p hp hw
  obtain ⟨t, w, hpeek, hholds, hsound⟩ := hp.peek p.active hw
  simp only [ParseM.peek, hpeek]
  refine ⟨hsound, fun a ha => ?_⟩
  cases ha
  exact hholds

theorem next : Keeps source (Ready source role) (ParseM.next role)
    fun t w => t.kind.isFinal = false → w.Ready source t.kind.nextRole := by
  intro p hp hw
  obtain ⟨t, w, hnext, hsound, hafter⟩ := hp.next p.active hw
  simp only [ParseM.next, hnext]
  refine ⟨hsound, fun a ha hopen => ?_⟩
  cases ha
  exact .inl (hafter hopen)

/-- A token that is ahead is the one that is taken. -/
theorem take {t : Token} (hopen : t.kind.isFinal = false) :
    Keeps source (Holds source role t) (ParseM.next role)
      fun _ w => w.Ready source t.kind.nextRole := by
  intro p hp hw
  obtain ⟨w, hnext, hsound, hafter⟩ := hp.next p.active hw
  simp only [ParseM.next, hnext]
  exact ⟨hsound, fun _ _ => .inl (hafter hopen)⟩

theorem checkLexical : Keeps source (Ready source .operator) ParseM.checkLexical
    fun _ => Ready source .operator := by
  refine peek.bind fun t => ?_
  split
  · exact fail _ _
  · exact pure fun w hw => .inr ⟨t, hw⟩

theorem expect (wanted : Symbol) : Keeps source (Ready source .operator) (ParseM.expect wanted)
    fun _ => Ready source (TokenKind.symbol wanted).nextRole := by
  refine next.bind fun t => ?_
  split
  · rename_i s hk
    split
    · rename_i heq
      subst heq
      refine pure fun w hw => ?_
      rw [hk] at hw
      exact hw rfl
    · exact fail _ _
  · exact fail _ _

/-- A rule is entered where an operand is expected and left where none is. -/
theorem rule (limit budget : Nat) (r : Rule) :
    Keeps source (Ready source .operand) (ParseM.rule limit budget r)
      fun _ => Ready source .operator := by
  -- On the budget: a rule may come to itself again, but with fewer rules left to spend.
  induction budget generalizing r with
  | zero => exact peek.bind fun t => fail _ _
  | succ budget ih =>
    refine within r ?_
    cases r with
    | expression => exact ih _
    | level l =>
      refine (ih _).bind fun left => peek.bind fun t => ?_
      split
      · exact (checkLexical.weaken fun w hw => .inr ⟨t, hw⟩).bind fun _ => pure fun _ hw => hw
      · rename_i op hop
        -- The operator is ahead already; with it the scanner turns to expect an operand.
        obtain ⟨hopen, hrole⟩ := TokenKind.nextRole_of_operator? hop
        refine (take hopen).bind fun _ => ?_
        rw [hrole]
        exact (ih _).bind fun _ => pure fun _ hw => hw
    | deref =>
      refine (ih _).bind fun base => peek.bind fun t => ?_
      split
      · rename_i hk
        refine (take (by rw [hk]; rfl)).bind fun _ => ?_
        rw [hk]
        refine peek.bind fun first => ((ih _).weaken fun w hw => .inr ⟨first, hw⟩).bind fun path => ?_
        split
        · exact pure fun _ hw => hw
        · exact fail _ _
      · exact (checkLexical.weaken fun w hw => .inr ⟨t, hw⟩).bind fun _ => pure fun _ hw => hw
    | primary =>
      refine next.bind fun t => ?_
      split
      · rename_i hk
        rw [hk]
        refine Keeps.bind ((ih _).weaken fun w hw => hw rfl) fun inner => ?_
        exact (expect _).bind fun _ => pure fun _ hw => hw
      · exact fail _ _
      · split
        · rename_i e he
          obtain ⟨hopen, hrole⟩ := TokenKind.nextRole_of_primary? he
          rw [hrole]
          exact pure fun w hw => hw hopen
        · exact fail _ _

theorem program (limit : Nat) :
    Keeps source (Ready source .operand) (ParseM.program limit) fun _ _ => True := by
  refine (rule limit limit .expression).bind fun root => next.bind fun t => ?_
  split
  · exact pure fun _ _ => trivial
  · exact fail _ _

end Keeps
end ParseM

namespace Lexeme

/-- Where no operand is expected, a sign is an operator. -/
theorem read_false_sign (cs : List Char) :
    (read false ('+' :: cs)).kind = .symbol .plus ∧ (read false ('-' :: cs)).kind = .symbol .minus :=
  ⟨rfl, rfl⟩

/-- Where an operand is expected, a sign before a digit belongs to a number. -/
theorem read_true_sign {sign digit : Char} (hsign : sign = '+' ∨ sign = '-')
    (hdigit : digit.isDigit = true) (cs : List Char) :
    read true (sign :: digit :: cs) = number (sign :: digit :: cs) := by
  have hstarts : startsNumber true sign (digit :: cs) = true := by
    rcases hsign with rfl | rfl <;> simp [startsNumber, hdigit]
  rw [read, if_pos hstarts]

end Lexeme

/-- At the byte offset of the token the source goes on with these characters. -/
def Token.FoundAt (source : String) (t : Token) (cs : List Char) : Prop :=
  ∃ before, Source.splitAt? t.span.offset source.toList = some (before, cs)

theorem Token.ReadIn.read_kind {source : String} {operandExpected : Bool} {t : Token}
    {cs : List Char} (h : t.ReadIn source operandExpected) (hat : t.FoundAt source cs) :
    (Lexeme.read operandExpected cs).kind = t.kind := by
  obtain ⟨before, covered, rest, hsource, hspan, hread⟩ := h
  obtain ⟨before', hsplit⟩ := hat
  rw [hspan, hsource, Source.splitAt?_byteSize] at hsplit
  cases hsplit
  rw [hread]

theorem Token.ReadIn.sign_operator {source : String} {t : Token} (h : t.ReadIn source false)
    (cs : List Char) :
    (t.FoundAt source ('+' :: cs) → t.kind = .symbol .plus) ∧
      (t.FoundAt source ('-' :: cs) → t.kind = .symbol .minus) := by
  constructor
  · intro hat
    rw [← h.read_kind hat]
    exact (Lexeme.read_false_sign cs).1
  · intro hat
    rw [← h.read_kind hat]
    exact (Lexeme.read_false_sign cs).2

theorem Token.ReadIn.sign_number {source : String} {t : Token} (h : t.ReadIn source true)
    {sign digit : Char} (hsign : sign = '+' ∨ sign = '-') (hdigit : digit.isDigit = true)
    {cs : List Char} (hat : t.FoundAt source (sign :: digit :: cs)) :
    (∃ x, t.kind = .number x) ∨ ∃ text, t.kind = .malformed (.invalidNumber text) := by
  have hkind := h.read_kind hat
  rw [Lexeme.read_true_sign hsign hdigit] at hkind
  rw [← hkind]
  exact Lexeme.number_kind _

/-- Watching changes nothing about a parse. Every token that the parser takes for a primary
expression was read where the scanner expected an operand, and every token in the place of an operator,
a closing parenthesis or the end where it did not. Hence a sign in the latter place is an operator,
and a sign with a digit in the former is the beginning of a number. -/
theorem sightings_consistent (limit : Nat) (source : String) :
    let run := ParseM.program limit ⟨Watch.start source, []⟩
    run.1 = (parseWith limit source).result ∧
      run.2.tokens.window = (ParseM.program limit (Parser.start source)).2.tokens ∧
      ∀ s ∈ run.2.tokens.sightings,
        (s.operandExpected = true ↔ s.role = .operand) ∧
        (s.operandExpected = false ↔ s.role = .operator) ∧
        (s.role = .operator → ∀ cs,
          (s.token.FoundAt source ('+' :: cs) → s.token.kind = .symbol .plus) ∧
          (s.token.FoundAt source ('-' :: cs) → s.token.kind = .symbol .minus)) ∧
        (s.role = .operand → ∀ sign digit cs, sign = '+' ∨ sign = '-' → digit.isDigit = true →
          s.token.FoundAt source (sign :: digit :: cs) →
          (∃ x, s.token.kind = .number x) ∨
            ∃ text, s.token.kind = .malformed (.invalidNumber text)) := by
  intro run
  have hfollows : ParseM.program limit (Parser.start source) = (run.1, run.2.map Watch.window) :=
    ParseM.Follows.program Watch.sameTokens_window limit ⟨Watch.start source, []⟩
  obtain ⟨hsound, _⟩ := ParseM.Keeps.program limit ⟨Watch.start source, []⟩
    (.inl (Watch.start_awaits source)) fun s hs => by cases hs
  refine ⟨(congrArg Prod.fst hfollows).symm, ?_, fun s hs => ?_⟩
  · rw [hfollows]
    rfl
  obtain ⟨hexpected, hread⟩ := hsound s hs
  refine ⟨?_, ?_, fun hrole cs => ?_, fun hrole sign digit cs hsign hdigit hat => ?_⟩
  · rw [hexpected]
    cases s.role <;> decide
  · rw [hexpected]
    cases s.role <;> decide
  · rw [hexpected, hrole] at hread
    exact hread.sign_operator cs
  · rw [hexpected, hrole] at hread
    exact hread.sign_number hsign hdigit hat

end PredicateLang
