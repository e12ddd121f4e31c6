import PredicateLang.Proofs.Grammar.Derivation
import PredicateLang.Proofs.Token.Phrase

/-!
# Written expressions

A tree can be written down with parentheses around both operands of every
operator and of every dot, and with white space between the words. Whatever texts
are chosen for its numbers and strings, and whatever white space, a parse gives
back the tree, and eight rules for each word are enough.
-/

namespace PredicateLang

/-- The texts of a literal. A number has every text that is scanned to it alone. -/
inductive Literal.Written : Literal → List Char → Prop
  | number {x text} : (tokens (String.ofList text)).map Token.kind = [.number x, .endOfInput] →
      Written (.number x) text
  | string {s text} : Quotation.SpellsAll s.toList text → Written (.string s) ('"' :: (text ++ ['"']))
  | boolean (b : Bool) : Written (.boolean b) (toString b).toList
  | nil : Written .nil "nil".toList

/-- Words in parentheses. -/
def bracketed (words : List (List Char)) : List (List Char) :=
  ['('] :: (words ++ [[')']])

/-- The words of a tree. -/
inductive Expr.Written : Expr → List (List Char) → Prop
  | literal {l word} : l.Written word → Written (.literal l) [word]
  | identifier (name : String) : Written (.identifier name) [name.toList]
  | member {base path words words'} : Written base words → Written path words' →
      Written (.member base path) (bracketed words ++ ['.'] :: bracketed words')
  | binary {op left right words words'} : Written left words → Written right words' →
      Written (.binary op left right) (bracketed words ++ op.text.toList :: bracketed words')

/-- Every number has a text, every name is one, and names and dots alone stand right of a dot. -/
def Expr.Writable : Expr → Prop
  | .literal (.number x) => ∃ text, (Literal.number x).Written text
  | .literal _ => True
  | .identifier name => IsName name
  | .member base path => base.Writable ∧ path.Writable ∧ path.isMember = true
  | .binary _ left right => left.Writable ∧ right.Writable

/-- A literal is a token where an operand is expected, and the grammar takes it as itself. -/
theorem Literal.Written.isToken {l : Literal} {word : List Char} (h : l.Written word) :
    ∃ kind, IsToken true word kind ∧ Atom kind (.literal l) ∧ kind.endsOperand = true := by
  cases h with
  | @number x text h => exact ⟨.number x, .of_tokens rfl h, .number x, rfl⟩
  | @string s text h => exact ⟨.string s, IsToken.string h true, .string s, rfl⟩
  | boolean b =>
    refine ⟨.boolean b, .of_read rfl ?_ ?_, .boolean b, rfl⟩
    · cases b <;> decide
    · cases b <;> rfl
  | nil => exact ⟨.nil, .of_read rfl (by decide) rfl, .nil, rfl⟩

section
variable {ks : List TokenKind} {e : Expr}

theorem Derives.deref_expression (h : Derives .deref ks e) : Derives .expression ks e :=
  .expression (.operand .or (.operand .and (.operand .relation (.operand .sum (.operand .product h)))))

theorem Derives.level_expression {l : Level} (h : Derives (.level l) ks e) :
    Derives .expression ks e := by
  cases l with
  | or => exact .expression h
  | and => exact .expression (.operand .or h)
  | relation => exact .expression (.operand .or (.operand .and h))
  | sum => exact .expression (.operand .or (.operand .and (.operand .relation h)))
  | product =>
    exact .expression (.operand .or (.operand .and (.operand .relation (.operand .sum h))))

theorem Derives.primary_level (h : Derives .primary ks e) (l : Level) : Derives (.level l) ks e := by
  have hproduct : Derives (.level .product) ks e := .operand .product (.base h)
  cases l with
  | product => exact hproduct
  | sum => exact .operand .sum hproduct
  | relation => exact .operand .relation (.operand .sum hproduct)
  | and => exact .operand .and (.operand .relation (.operand .sum hproduct))
  | or => exact .operand .or (.operand .and (.operand .relation (.operand .sum hproduct)))

theorem Derives.primary_operand (h : Derives .primary ks e) (l : Level) :
    Derives l.operand ks e := by
  cases l with
  | product => exact .base h
  | _ => exact h.primary_level _

end

/-- Each operator is a symbol of one level, and is written as that symbol. -/
theorem BinaryOp.exists_writes (op : BinaryOp) :
    ∃ l s, Level.Writes l s op ∧ s.text = op.text := by
  cases op with
  | or => exact ⟨_, _, .or, rfl⟩
  | and => exact ⟨_, _, .and, rfl⟩
  | relation r =>
    cases r with
    | equal => exact ⟨_, _, .equal, rfl⟩
    | notEqual => exact ⟨_, _, .notEqual, rfl⟩
    | less => exact ⟨_, _, .less, rfl⟩
    | lessOrEqual => exact ⟨_, _, .lessOrEqual, rfl⟩
    | greater => exact ⟨_, _, .greater, rfl⟩
    | greaterOrEqual => exact ⟨_, _, .greaterOrEqual, rfl⟩
  | arithmetic a =>
    cases a with
    | plus => exact ⟨_, _, .plus, rfl⟩
    | minus => exact ⟨_, _, .minus, rfl⟩
    | times => exact ⟨_, _, .times, rfl⟩
    | divide => exact ⟨_, _, .divide, rfl⟩
    | remainder => exact ⟨_, _, .remainder, rfl⟩

/-- The words are tokens from which the rule derives the tree, and no operand is expected after
them. -/
def Rule.Reads (r : Rule) (words : List (List Char)) (e : Expr) : Prop :=
  ∃ ks, Phrase true words ks false ∧ Derives r ks e

theorem Rule.Reads.bracketed {words : List (List Char)} {e : Expr}
    (h : Rule.expression.Reads words e) : Rule.primary.Reads (bracketed words) e := by
  obtain ⟨ks, hphrase, hd⟩ := h
  have hright : Phrase false [[')']] [.symbol .rightParen] false :=
    .single (IsToken.symbol .rightParen false)
  exact ⟨_, .cons (IsToken.symbol .leftParen true) (hphrase.append hright), .group hd⟩

/-- A word that is a whole operand is an expression. -/
theorem Rule.Reads.of_atom {word : List Char} {kind : TokenKind} {e : Expr}
    (hword : IsToken true word kind) (hatom : Atom kind e) (hends : kind.endsOperand = true) :
    Rule.expression.Reads [word] e := by
  have hphrase := Phrase.single hword
  rw [hends] at hphrase
  exact ⟨_, hphrase, (Derives.base (.atom hatom)).deref_expression⟩

/-- What is written is read as the tree that it was written for. -/
theorem Expr.Written.reads {e : Expr} {words : List (List Char)} (h : e.Written words)
    (he : e.Writable) : Rule.expression.Reads words e := by
  -- The parentheses make every operand a primary expression, which stands at any level.
  induction h with
  | literal hl =>
    obtain ⟨kind, hword, hatom, hends⟩ := hl.isToken
    exact .of_atom hword hatom hends
  | identifier name => exact .of_atom (IsToken.name he true) (.identifier name) rfl
  | member _ _ ihb ihp =>
    obtain ⟨hbase, hpath, hmember⟩ := he
    obtain ⟨ks, hphrase, hd⟩ := (ihb hbase).bracketed
    obtain ⟨ks', hphrase', hd'⟩ := (ihp hpath).bracketed
    exact ⟨_, hphrase.append (.cons (IsToken.symbol .dot false) hphrase'),
      Derives.deref_expression (.member hd (.base hd') hmember)⟩
  | @binary op left right words words' _ _ ihl ihr =>
    obtain ⟨hleft, hright⟩ := he
    obtain ⟨ks, hphrase, hd⟩ := (ihl hleft).bracketed
    obtain ⟨ks', hphrase', hd'⟩ := (ihr hright).bracketed
    obtain ⟨l, s, hw, htext⟩ := op.exists_writes
    have hop : IsToken false op.text.toList (.symbol s) := htext ▸ IsToken.symbol s false
    have hends : (!(TokenKind.symbol s).endsOperand) = true := by
      cases hw <;> rfl
    have hbinary : Derives (.level l) (ks ++ .symbol s :: ks') (.binary op left right) :=
      .binary (Level.builtOver_iff.mpr rfl) (hd.primary_operand l) hw (hd'.primary_level l)
    refine ⟨_, hphrase.append (.cons hop ?_), hbinary.level_expression⟩
    rwa [hends]

theorem Expr.Writable.exists_literal {l : Literal} (h : (Expr.literal l).Writable) :
    ∃ text, l.Written text := by
  cases l with
  | number x => exact h
  | string s =>
    obtain ⟨text, htext⟩ := Quotation.exists_spellsAll s.toList
    exact ⟨_, .string htext⟩
  | boolean b => exact ⟨_, .boolean b⟩
  | nil => exact ⟨_, .nil⟩

theorem Expr.Writable.exists_written {e : Expr} (he : e.Writable) : ∃ words, e.Written words := by
  induction e with
  | literal l =>
    obtain ⟨text, htext⟩ := he.exists_literal
    exact ⟨_, .literal htext⟩
  | identifier name => exact ⟨_, .identifier name⟩
  | member base path ihb ihp =>
    obtain ⟨words, hbase⟩ := ihb he.1
    obtain ⟨words', hpath⟩ := ihp he.2.1
    exact ⟨_, .member hbase hpath⟩
  | binary op left right ihl ihr =>
    obtain ⟨words, hleft⟩ := ihl he.1
    obtain ⟨words', hright⟩ := ihr he.2
    exact ⟨_, .binary hleft hright⟩

/-- A spaced expression is parsed as its tree, within eight rules for each of its words. -/
theorem Rule.Reads.parseWith_eq {words : List (List Char)} {e : Expr} {lead text : List Char}
    (h : Rule.expression.Reads words e) (hspaced : Spaced words text) (hlead : Text.Blank lead) :
    (tokens (String.ofList (lead ++ text))).length = words.length + 1 ∧
      ∀ limit, 8 * words.length ≤ limit →
        (parseWith limit (String.ofList (lead ++ text))).result = .ok ⟨e⟩ := by
  obtain ⟨ks, hphrase, hd⟩ := h
  have hkinds := hphrase.map_kind_tokens hspaced hlead
  have hwords := hphrase.length_eq
  generalize String.ofList (lead ++ text) = source at *
  constructor
  · have hlength := congrArg List.length hkinds
    rwa [List.length_map, List.length_append, List.length_singleton, ← hwords] at hlength
  · intro limit hlimit
    obtain ⟨ts, last, htokens, hs⟩ := exists_tokens_eq source
    rw [htokens, List.map_append] at hkinds
    obtain ⟨hts, hlast⟩ := List.append_inj' hkinds rfl
    have hend : last.kind = .endOfInput := List.singleton_inj.mp hlast
    -- Of `n + 1` words each but the first pays for eight rules, and the first for the outer eight.
    obtain ⟨n, hn⟩ := hd.exists_length_eq
    have haccepts := hd.accepts_within hn ts (Stream'.const last) hts
      (TokenKind.expression_lt_reach (.inl hend))
    have hbudget : 8 * n + Rule.expression.height ≤ limit := by
      simp only [Rule.height]
      omega
    rw [← hs.eq_append] at haccepts
    rw [← program_stream_result, (haccepts.mono hbudget).program_eq, Expr.finish_eq_ok_iff]
    exact ⟨hend, rfl⟩

theorem exists_spaced {words : List (List Char)} (h : words ≠ []) : ∃ text, Spaced words text := by
  induction words with
  | nil => exact absurd rfl h
  | cons word words ih =>
    cases words with
    | nil => exact ⟨_, .last Text.Blank.nil⟩
    | cons next words =>
      obtain ⟨text, htext⟩ := ih (List.cons_ne_nil _ _)
      exact ⟨_, .cons (List.cons_ne_nil ' ' []) Text.Blank.space htext⟩

/-- A tree that can be written is what a parse of it gives back, however it is written. -/
theorem parseWith_of_written {e : Expr} (he : e.Writable) :
    (∃ words text, e.Written words ∧ Spaced words text) ∧
      ∀ words lead text, e.Written words → Text.Blank lead → Spaced words text →
        (tokens (String.ofList (lead ++ text))).length = words.length + 1 ∧
          ∀ limit, 8 * words.length ≤ limit →
            (parseWith limit (String.ofList (lead ++ text))).result = .ok ⟨e⟩ := by
  constructor
  · obtain ⟨words, hwritten⟩ := he.exists_written
    obtain ⟨ks, hphrase, hd⟩ := hwritten.reads he
    obtain ⟨n, hn⟩ := hd.exists_length_eq
    have hne : words ≠ [] := by
      rintro rfl
      rw [← hphrase.length_eq] at hn
      cases hn
    obtain ⟨text, hspaced⟩ := exists_spaced hne
    exact ⟨words, text, hwritten, hspaced⟩
  · intro words lead text hwritten hlead hspaced
    exact (hwritten.reads he).parseWith_eq hspaced hlead

theorem parseWith_of_written_difference :
    (Expr.binary (.arithmetic .minus) (.member (.identifier "u") (.identifier "b"))
      (.literal (.number (-(Number.Decimal.mk 1 0).toFloat)))).Writable ∧
    (parseWith 104 "( ( u ) . ( b ) ) - ( -1 )").result =
      .ok ⟨.binary (.arithmetic .minus) (.member (.identifier "u") (.identifier "b"))
        (.literal (.number (-(Number.Decimal.mk 1 0).toFloat)))⟩ := by
  let x := -(Number.Decimal.mk 1 0).toFloat
  have hnumber : (tokens (String.ofList ['-', '1'])).map Token.kind = [.number x, .endOfInput] := by
    have hend : Piece.ReadBefore ⟨[], .endOfInput, []⟩ false [] :=
      ⟨Text.Blank.nil, fun _ hc => (by cases hc), rfl⟩
    have hone : Piece.ReadBefore ⟨[], .number x, ['-', '1']⟩ true [] :=
      ⟨Text.Blank.nil, any_head?_eq_false_iff.mp rfl, rfl⟩
    have hreads : Piece.Reads true [⟨[], .number x, ['-', '1']⟩, ⟨[], .endOfInput, []⟩] [] :=
      .cons hone rfl (.last hend rfl)
    rw [tokens, Scanner.tokensFrom_eq hreads rfl rfl]
    rfl
  have hu : IsName "u" :=
    ⟨⟨'u', [], rfl, rfl, fun _ hc => (by cases hc)⟩, by decide, by decide, by decide⟩
  have hb : IsName "b" :=
    ⟨⟨'b', [], rfl, rfl, fun _ hc => (by cases hc)⟩, by decide, by decide, by decide⟩
  have he : (Expr.binary (.arithmetic .minus) (.member (.identifier "u") (.identifier "b"))
      (.literal (.number x))).Writable := ⟨⟨hu, hb, rfl⟩, ['-', '1'], .number hnumber⟩
  have hgap : [' '] ≠ [] := List.cons_ne_nil _ _
  have hblank := Text.Blank.space
  have hspaced : Spaced (bracketed (bracketed ["u".toList] ++ ['.'] :: bracketed ["b".toList]) ++
      "-".toList :: bracketed [['-', '1']]) _ :=
    .cons hgap hblank (.cons hgap hblank (.cons hgap hblank (.cons hgap hblank (.cons hgap hblank
      (.cons hgap hblank (.cons hgap hblank (.cons hgap hblank (.cons hgap hblank (.cons hgap hblank
        (.cons hgap hblank (.cons hgap hblank (.last Text.Blank.nil))))))))))))
  have hwritten := @Expr.Written.binary (.arithmetic .minus) _ _ _ _
    (.member (.identifier "u") (.identifier "b")) (.literal (.number hnumber))
  exact ⟨he, ((parseWith_of_written he).2 _ [] _ hwritten Text.Blank.nil hspaced).2 104 (by decide)⟩

end PredicateLang
