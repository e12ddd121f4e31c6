import PredicateLang.Proofs.Grammar.Source

/-!
# What a rule can do

Parsing a rule on a stream of tokens either accepts an expression or fails with
an error. Two relations list every way in which each can happen: one constructor
for each path through a rule. Together they describe the parser completely, so
that a law of parsing is an induction on them. Acceptance does not depend on the
limit or on the rules that were active before.
-/

namespace PredicateLang

/-- The fault of a token where an operand should start. -/
def TokenKind.noOperand : TokenKind → ParseFault
  | .endOfInput => .unexpectedEnd
  | kind => kind.misplaced (.unexpected kind)

/-- With at most `budget` further rules active at a time, the rule accepts an expression and
leaves the rest of the stream. -/
inductive Accepts : Nat → Rule → Stream' Token → Expr → Stream' Token → Prop
  | expression {b s e s'} : Accepts b (.level .or) s e s' → Accepts (b + 1) .expression s e s'
  | operand {b s e s' l} : Accepts b (Level.operand l) s e s' →
      l.operator? s'.head.kind = none → (∀ x, s'.head.kind ≠ .malformed x) →
      Accepts (b + 1) (.level l) s e s'
  | binary {b s left s₁ right s₂ l op} : Accepts b (Level.operand l) s left s₁ →
      l.operator? s₁.head.kind = some op → Accepts b (.level l) s₁.tail right s₂ →
      Accepts (b + 1) (.level l) s (.binary op left right) s₂
  | base {b s e s'} : Accepts b .primary s e s' →
      s'.head.kind ≠ .symbol .dot → (∀ x, s'.head.kind ≠ .malformed x) →
      Accepts (b + 1) .deref s e s'
  | member {b s base s₁ path s₂} : Accepts b .primary s base s₁ →
      s₁.head.kind = .symbol .dot → Accepts b .deref s₁.tail path s₂ → path.isMember = true →
      Accepts (b + 1) .deref s (.member base path) s₂
  | atom {b s e} : s.head.kind.primary? = some e → Accepts (b + 1) .primary s e s.tail
  | group {b s e s₁} : s.head.kind = .symbol .leftParen → Accepts b .expression s.tail e s₁ →
      s₁.head.kind = .symbol .rightParen → Accepts (b + 1) .primary s e s₁.tail

/-- With `limit` as the greatest number of active rules, `budget` of which are left, and with
`active` as the rules that are active already, the rule fails and leaves the rest of the
stream. -/
inductive Fails (limit : Nat) :
    Nat → List Rule → Rule → Stream' Token → ParseError → Stream' Token → Prop
  | tooDeep {a r s} : Fails limit 0 a r s ⟨.tooDeep limit, a.reverse, s.head⟩ s
  | expression {b a s e s'} : Fails limit b (.expression :: a) (.level .or) s e s' →
      Fails limit (b + 1) a .expression s e s'
  | operand {b a s e s' l} : Fails limit b (.level l :: a) (Level.operand l) s e s' →
      Fails limit (b + 1) a (.level l) s e s'
  | afterOperand {b a s left s' l x} : Accepts b (Level.operand l) s left s' →
      s'.head.kind = .malformed x →
      Fails limit (b + 1) a (.level l) s ⟨.lexical x, (.level l :: a).reverse, s'.head⟩ s'
  | right {b a s left s₁ e s₂ l op} : Accepts b (Level.operand l) s left s₁ →
      l.operator? s₁.head.kind = some op → Fails limit b (.level l :: a) (.level l) s₁.tail e s₂ →
      Fails limit (b + 1) a (.level l) s e s₂
  | base {b a s e s'} : Fails limit b (.deref :: a) .primary s e s' →
      Fails limit (b + 1) a .deref s e s'
  | afterBase {b a s base s' x} : Accepts b .primary s base s' → s'.head.kind = .malformed x →
      Fails limit (b + 1) a .deref s ⟨.lexical x, (Rule.deref :: a).reverse, s'.head⟩ s'
  | path {b a s base s₁ e s₂} : Accepts b .primary s base s₁ → s₁.head.kind = .symbol .dot →
      Fails limit b (.deref :: a) .deref s₁.tail e s₂ → Fails limit (b + 1) a .deref s e s₂
  | notMember {b a s base s₁ path s₂} : Accepts b .primary s base s₁ →
      s₁.head.kind = .symbol .dot → Accepts b .deref s₁.tail path s₂ → path.isMember = false →
      Fails limit (b + 1) a .deref s
        ⟨.expectedIdentifier, (Rule.deref :: a).reverse, s₁.tail.head⟩ s₂
  | inner {b a s e s₁} : s.head.kind = .symbol .leftParen →
      Fails limit b (.primary :: a) .expression s.tail e s₁ →
      Fails limit (b + 1) a .primary s e s₁
  | unclosed {b a s inner s₁} : s.head.kind = .symbol .leftParen →
      Accepts b .expression s.tail inner s₁ → s₁.head.kind ≠ .symbol .rightParen →
      Fails limit (b + 1) a .primary s
        ⟨s₁.head.kind.misplaced (.expected .rightParen), (Rule.primary :: a).reverse, s₁.head⟩
        s₁.tail
  | noOperand {b a s} : s.head.kind.primary? = none → s.head.kind ≠ .symbol .leftParen →
      Fails limit (b + 1) a .primary s
        ⟨s.head.kind.noOperand, (Rule.primary :: a).reverse, s.head⟩ s.tail

namespace ParseM

variable {α β : Type}

theorem bind_ok {σ : Type} {x : ParseM σ α} {p q : Parser σ} {a : α} (h : x p = (.ok a, q))
    (k : α → ParseM σ β) : (x >>= k) p = k a q := by
  rw [bind_apply, h]

theorem bind_error {σ : Type} {x : ParseM σ α} {p q : Parser σ} {e : ParseError}
    (h : x p = (.error e, q)) (k : α → ParseM σ β) : (x >>= k) p = (.error e, q) := by
  rw [bind_apply, h]

@[simp] theorem pure_apply {σ : Type} (x : α) (p : Parser σ) :
    (pure x : ParseM σ α) p = (.ok x, p) := rfl

@[simp] theorem fail_apply {σ : Type} (fault : ParseFault) (token : Token) (p : Parser σ) :
    (fail fault token : ParseM σ α) p = (.error ⟨fault, p.active.reverse, token⟩, p) := rfl

@[simp] theorem peek_stream (role : Role) (p : Parser (Stream' Token)) :
    peek role p = (.ok p.tokens.head, p) := rfl

@[simp] theorem next_stream (role : Role) (p : Parser (Stream' Token)) :
    next role p = (.ok p.tokens.head, { p with tokens := p.tokens.tail }) := rfl

theorem within_apply {σ : Type} {r : Rule} {step : ParseM σ α} {p q : Parser σ}
    {out : Except ParseError α} (h : step { p with active := r :: p.active } = (out, q)) :
    within r step p = (out, { q with active := q.active.tail }) := by
  rw [within, h]

theorem checkLexical_ok {p : Parser (Stream' Token)}
    (h : ∀ x, p.tokens.head.kind ≠ .malformed x) : checkLexical p = (.ok (), p) := by
  rw [checkLexical, bind_ok (peek_stream _ _)]
  cases hk : p.tokens.head.kind with
  | malformed x => exact absurd hk (h x)
  | _ => rfl

theorem checkLexical_error {p : Parser (Stream' Token)} {x : ScanError}
    (h : p.tokens.head.kind = .malformed x) :
    checkLexical p = (.error ⟨.lexical x, p.active.reverse, p.tokens.head⟩, p) := by
  rw [checkLexical, bind_ok (peek_stream _ _), h]
  rfl

theorem expect_ok {p : Parser (Stream' Token)} {wanted : Symbol}
    (h : p.tokens.head.kind = .symbol wanted) :
    expect wanted p = (.ok (), { p with tokens := p.tokens.tail }) := by
  rw [expect, bind_ok (next_stream _ _), h]
  simp

theorem expect_error {p : Parser (Stream' Token)} {wanted : Symbol}
    (h : p.tokens.head.kind ≠ .symbol wanted) :
    expect wanted p =
      (.error ⟨p.tokens.head.kind.misplaced (.expected wanted), p.active.reverse, p.tokens.head⟩,
        { p with tokens := p.tokens.tail }) := by
  rw [expect, bind_ok (next_stream _ _)]
  cases hk : p.tokens.head.kind with
  | symbol s =>
    have hne : s ≠ wanted := fun he => h (by rw [hk, he])
    simp [hne, TokenKind.misplaced]
  | _ => rfl

end ParseM

/-- What is accepted is what the parser yields, whatever the limit and the active rules. -/
theorem Accepts.rule_eq {b : Nat} {r : Rule} {s s' : Stream' Token} {e : Expr}
    (h : Accepts b r s e s') (limit : Nat) (a : List Rule) :
    ParseM.rule limit b r ⟨s, a⟩ = (.ok e, ⟨s', a⟩) := by
  induction h generalizing a with
  | @expression b s e s' _ ih =>
    exact ParseM.within_apply (q := ⟨s', .expression :: a⟩) (ih _)
  | @operand b s e s' l _ hop hm ih =>
    refine ParseM.within_apply (q := ⟨s', .level l :: a⟩) ?_
    dsimp only
    rw [ParseM.bind_ok (ih _), ParseM.bind_ok (ParseM.peek_stream _ _), hop]
    exact ParseM.bind_ok (ParseM.checkLexical_ok hm) _
  | @binary b s left s₁ right s₂ l op _ hop _ ihl ihr =>
    refine ParseM.within_apply (q := ⟨s₂, .level l :: a⟩) ?_
    dsimp only
    rw [ParseM.bind_ok (ihl _), ParseM.bind_ok (ParseM.peek_stream _ _), hop]
    exact (ParseM.bind_ok (ParseM.next_stream _ _) _).trans (ParseM.bind_ok (ihr _) _)
  | @base b s e s' _ hd hm ih =>
    refine ParseM.within_apply (q := ⟨s', .deref :: a⟩) ?_
    dsimp only
    rw [ParseM.bind_ok (ih _), ParseM.bind_ok (ParseM.peek_stream _ _)]
    cases hk : s'.head.kind with
    | symbol c =>
      cases c with
      | dot => exact absurd hk hd
      | _ => exact ParseM.bind_ok (ParseM.checkLexical_ok hm) _
    | _ => exact ParseM.bind_ok (ParseM.checkLexical_ok hm) _
  | @member b s base s₁ path s₂ _ hd _ hp ihb ihp =>
    refine ParseM.within_apply (q := ⟨s₂, .deref :: a⟩) ?_
    dsimp only
    rw [ParseM.bind_ok (ihb _), ParseM.bind_ok (ParseM.peek_stream _ _), hd]
    dsimp only
    rw [ParseM.bind_ok (ParseM.next_stream _ _), ParseM.bind_ok (ParseM.peek_stream _ _),
      ParseM.bind_ok (ihp _), hp]
    rfl
  | @atom b s e he =>
    refine ParseM.within_apply (q := ⟨s.tail, .primary :: a⟩) ?_
    dsimp only
    rw [ParseM.bind_ok (ParseM.next_stream _ _)]
    cases hk : s.head.kind <;> rw [hk] at he <;> cases he <;> rfl
  | @group b s e s₁ hl _ hr ih =>
    refine ParseM.within_apply (q := ⟨s₁.tail, .primary :: a⟩) ?_
    dsimp only
    rw [ParseM.bind_ok (ParseM.next_stream _ _), hl]
    exact (ParseM.bind_ok (ih _) _).trans (ParseM.bind_ok (ParseM.expect_ok hr) _)

/-- What fails is what the parser reports. -/
theorem Fails.rule_eq {limit b : Nat} {a : List Rule} {r : Rule} {s s' : Stream' Token}
    {e : ParseError} (h : Fails limit b a r s e s') :
    ParseM.rule limit b r ⟨s, a⟩ = (.error e, ⟨s', a⟩) := by
  induction h with
  | tooDeep => rfl
  | @expression b a s e s' _ ih =>
    exact ParseM.within_apply (q := ⟨s', .expression :: a⟩) ih
  | @operand b a s e s' l _ ih =>
    exact ParseM.within_apply (q := ⟨s', .level l :: a⟩) (ParseM.bind_error ih _)
  | @afterOperand b a s left s' l x hl hx =>
    refine ParseM.within_apply (q := ⟨s', .level l :: a⟩) ?_
    dsimp only
    rw [ParseM.bind_ok (hl.rule_eq _ _), ParseM.bind_ok (ParseM.peek_stream _ _)]
    have hop : l.operator? s'.head.kind = none := by
      rw [hx]
      cases l <;> rfl
    rw [hop]
    exact ParseM.bind_error (ParseM.checkLexical_error hx) _
  | @right b a s left s₁ e s₂ l op hl hop _ ih =>
    refine ParseM.within_apply (q := ⟨s₂, .level l :: a⟩) ?_
    dsimp only
    rw [ParseM.bind_ok (hl.rule_eq _ _), ParseM.bind_ok (ParseM.peek_stream _ _), hop]
    exact (ParseM.bind_ok (ParseM.next_stream _ _) _).trans (ParseM.bind_error ih _)
  | @base b a s e s' _ ih =>
    exact ParseM.within_apply (q := ⟨s', .deref :: a⟩) (ParseM.bind_error ih _)
  | @afterBase b a s base s' x hb hx =>
    refine ParseM.within_apply (q := ⟨s', .deref :: a⟩) ?_
    dsimp only
    rw [ParseM.bind_ok (hb.rule_eq _ _), ParseM.bind_ok (ParseM.peek_stream _ _), hx]
    exact ParseM.bind_error (ParseM.checkLexical_error hx) _
  | @path b a s base s₁ e s₂ hb hd _ ih =>
    refine ParseM.within_apply (q := ⟨s₂, .deref :: a⟩) ?_
    dsimp only
    rw [ParseM.bind_ok (hb.rule_eq _ _), ParseM.bind_ok (ParseM.peek_stream _ _), hd]
    dsimp only
    rw [ParseM.bind_ok (ParseM.next_stream _ _), ParseM.bind_ok (ParseM.peek_stream _ _)]
    exact ParseM.bind_error ih _
  | @notMember b a s base s₁ path s₂ hb hd hp hm =>
    refine ParseM.within_apply (q := ⟨s₂, .deref :: a⟩) ?_
    dsimp only
    rw [ParseM.bind_ok (hb.rule_eq _ _), ParseM.bind_ok (ParseM.peek_stream _ _), hd]
    dsimp only
    rw [ParseM.bind_ok (ParseM.next_stream _ _), ParseM.bind_ok (ParseM.peek_stream _ _),
      ParseM.bind_ok (hp.rule_eq _ _), hm]
    rfl
  | @inner b a s e s₁ hl _ ih =>
    refine ParseM.within_apply (q := ⟨s₁, .primary :: a⟩) ?_
    dsimp only
    rw [ParseM.bind_ok (ParseM.next_stream _ _), hl]
    exact ParseM.bind_error ih _
  | @unclosed b a s inner s₁ hl hi hr =>
    refine ParseM.within_apply (q := ⟨s₁.tail, .primary :: a⟩) ?_
    dsimp only
    rw [ParseM.bind_ok (ParseM.next_stream _ _), hl]
    exact (ParseM.bind_ok (hi.rule_eq _ _) _).trans (ParseM.bind_error (ParseM.expect_error hr) _)
  | @noOperand b a s hp hl =>
    refine ParseM.within_apply (q := ⟨s.tail, .primary :: a⟩) ?_
    dsimp only
    rw [ParseM.bind_ok (ParseM.next_stream _ _)]
    cases hk : s.head.kind with
    | endOfInput => rfl
    | malformed x => rfl
    | symbol c =>
      cases c with
      | leftParen => exact absurd hk hl
      | _ => rfl
    | _ => rw [hk] at hp; cases hp

/-- Every rule accepts or fails. -/
theorem accepts_or_fails (limit b : Nat) (a : List Rule) (r : Rule) (s : Stream' Token) :
    (∃ e s', Accepts b r s e s') ∨ (∃ e s', Fails limit b a r s e s') := by
  induction b generalizing a r s with
  | zero => exact .inr ⟨_, _, .tooDeep⟩
  | succ b ih =>
    cases r with
    | expression =>
      rcases ih (.expression :: a) (.level .or) s with ⟨e, s', h⟩ | ⟨e, s', h⟩
      · exact .inl ⟨e, s', .expression h⟩
      · exact .inr ⟨e, s', .expression h⟩
    | level l =>
      rcases ih (.level l :: a) l.operand s with ⟨left, s₁, hl⟩ | ⟨e, s', h⟩
      · cases hop : l.operator? s₁.head.kind with
        | none =>
          by_cases hx : ∃ x, s₁.head.kind = .malformed x
          · obtain ⟨x, hx⟩ := hx
            exact .inr ⟨_, _, .afterOperand hl hx⟩
          · exact .inl ⟨_, _, .operand hl hop fun x h => hx ⟨x, h⟩⟩
        | some op =>
          rcases ih (.level l :: a) (.level l) s₁.tail with ⟨right, s₂, hr⟩ | ⟨e, s₂, hr⟩
          · exact .inl ⟨_, _, .binary hl hop hr⟩
          · exact .inr ⟨_, _, .right hl hop hr⟩
      · exact .inr ⟨_, _, .operand h⟩
    | deref =>
      rcases ih (.deref :: a) .primary s with ⟨base, s₁, hb⟩ | ⟨e, s', h⟩
      · by_cases hd : s₁.head.kind = .symbol .dot
        · rcases ih (.deref :: a) .deref s₁.tail with ⟨path, s₂, hp⟩ | ⟨e, s₂, hp⟩
          · cases hm : path.isMember with
            | true => exact .inl ⟨_, _, .member hb hd hp hm⟩
            | false => exact .inr ⟨_, _, .notMember hb hd hp hm⟩
          · exact .inr ⟨_, _, .path hb hd hp⟩
        · by_cases hx : ∃ x, s₁.head.kind = .malformed x
          · obtain ⟨x, hx⟩ := hx
            exact .inr ⟨_, _, .afterBase hb hx⟩
          · exact .inl ⟨_, _, .base hb hd fun x h => hx ⟨x, h⟩⟩
      · exact .inr ⟨_, _, .base h⟩
    | primary =>
      by_cases hl : s.head.kind = .symbol .leftParen
      · rcases ih (.primary :: a) .expression s.tail with ⟨inner, s₁, hi⟩ | ⟨e, s₁, hi⟩
        · by_cases hr : s₁.head.kind = .symbol .rightParen
          · exact .inl ⟨_, _, .group hl hi hr⟩
          · exact .inr ⟨_, _, .unclosed hl hi hr⟩
        · exact .inr ⟨_, _, .inner hl hi⟩
      · cases hp : s.head.kind.primary? with
        | none => exact .inr ⟨_, _, .noOperand hp hl⟩
        | some e => exact .inl ⟨_, _, .atom hp⟩

/-- What becomes of a root expression, given what is left of the stream. -/
def Expr.finish (root : Expr) (s : Stream' Token) : Except ParseError Program :=
  match s.head.kind with
  | .endOfInput => .ok ⟨root⟩
  | kind => .error ⟨kind.misplaced (.unexpected kind), [], s.head⟩

section
variable {limit : Nat} {s s' : Stream' Token}

theorem Accepts.program_eq {e : Expr} (h : Accepts limit .expression s e s') :
    ParseM.program limit ⟨s, []⟩ = (e.finish s', ⟨s'.tail, []⟩) := by
  rw [ParseM.program, ParseM.bind_ok (h.rule_eq _ _), ParseM.bind_ok (ParseM.next_stream _ _),
    Expr.finish]
  cases hk : s'.head.kind <;> rfl

theorem Fails.program_eq {e : ParseError} (h : Fails limit limit [] .expression s e s') :
    ParseM.program limit ⟨s, []⟩ = (.error e, ⟨s', []⟩) := by
  rw [ParseM.program, ParseM.bind_error h.rule_eq]

end

end PredicateLang
