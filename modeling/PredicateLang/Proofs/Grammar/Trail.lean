import Mathlib.Data.List.Nodup
import PredicateLang.Proofs.Grammar.Activity
import PredicateLang.Proofs.Grammar.ErrorPosition
import PredicateLang.Proofs.Token.Tiling

/-!
# The trail of a parse error

A parse error names the rules that were active when it occurred. They are the calls by which the
parse came to the rule that reports the error, on the tokens that it took in them. Each fault is
reported by rules of its own. No rule is active any more when a whole expression is followed by
something else, and none can become active without a limit above zero.
-/

namespace PredicateLang

/-- The grammar lets a rule call another. -/
inductive Rule.MayCall : Rule → Rule → Prop
  | expression : MayCall .expression (.level .or)
  | again (l : Level) : MayCall (.level l) (.level l)
  | tighter {l r} : Level.BuiltOver l r → MayCall (.level l) r
  | path : MayCall .deref .deref
  | base : MayCall .deref .primary
  | group : MayCall .primary .expression

/-- The fault can be reported by this rule as the innermost active one, or by none. -/
def ParseFault.EndsTrail : ParseFault → Option Rule → Prop
  | .lexical _, last => last = some .deref ∨ last = some .primary
  | .unexpectedEnd, last | .expected _, last => last = some .primary
  | .unexpected _, last => last = none ∨ last = some .primary
  | .expectedIdentifier, last => last = some .deref
  | .tooDeep _, _ => True

/-- A whole expression was parsed, and the token after it is unexpected. -/
def ParseError.Leftover (source : String) (e : ParseError) : Prop :=
  ∃ used more root, tokens source = used ++ e.token :: more ∧
    Derives .expression (used.map Token.kind) root ∧ e.fault = .unexpected e.token.kind

/-- The rules of an error are calls from the root rule on. The innermost one suits the fault, and
the tokens of the source are those that the calls take. -/
structure ParseError.Trail (limit : Nat) (source : String) (e : ParseError) : Prop where
  first : e.rules = [] ∨ e.rules.head? = some .expression
  calls : e.rules.IsChain Rule.MayCall
  last : e.fault.EndsTrail e.rules.getLast?
  eq_nil_iff : e.rules = [] ↔ limit = 0 ∨ e.Leftover source
  taken : e.rules ≠ [] → ∃ used more q, tokens source = used ++ more ∧
    Rule.expression.Descends (used.map Token.kind) e.rules q

namespace Rule

variable {r q : Rule} {ks : List TokenKind} {trail : List Rule} {k : TokenKind} {fault : ParseFault}

theorem Calls.mayCall (h : Calls r ks q) : r.MayCall q := by
  cases h with
  | expression => exact .expression
  | operand hb => exact .tighter hb
  | right => exact .again _
  | base => exact .base
  | path => exact .path
  | inner => exact .group

theorem Descends.head?_eq (h : Descends r ks trail q) : trail.head? = some r := by
  cases h <;> rfl

theorem Descends.getLast?_eq (h : Descends r ks trail q) : trail.getLast? = some q := by
  induction h with
  | refl => rfl
  | step _ _ ih => rw [List.getLast?_cons, ih, Option.getD_some]

theorem Descends.isChain (h : Descends r ks trail q) : trail.IsChain MayCall := by
  induction h with
  | refl => exact List.isChain_singleton _
  | step hcall hd ih =>
    refine List.isChain_cons.mpr ⟨fun q hq => ?_, ih⟩
    rw [hd.head?_eq] at hq
    obtain rfl := Option.some.inj hq
    exact hcall.mayCall

theorem Halts.endsTrail (h : Halts r ks k fault) : fault.EndsTrail (some r) := by
  cases h with
  | noOperand _ _ =>
    cases k with
    | endOfInput => exact rfl
    | _ => exact .inr rfl
  | malformed _ => exact .inl rfl
  | unclosed _ _ _ =>
    cases k with
    | malformed x => exact .inr rfl
    | _ => exact rfl
  | notMember _ _ => exact rfl

/-- Only where an operand is missing a token is unexpected. -/
theorem Halts.of_unexpected (h : Halts r ks k fault) {found : TokenKind}
    (hfault : fault = .unexpected found) : r = .primary ∧ ks = [] := by
  cases h with
  | noOperand _ _ => exact ⟨rfl, rfl⟩
  | malformed _ => cases hfault
  | unclosed _ _ _ => cases k <;> cases hfault
  | notMember _ _ => cases hfault

/-- Where an operand is missing, no whole expression has been taken. -/
theorem Reaches.not_derives (h : Reaches .expression ks .primary) (root : Expr) :
    ¬ Derives .expression ks root := by
  intro hd
  -- Both would go on with the end of input, which ends an expression and is no operand.
  let ts := ks.map TokenKind.somewhere
  let s := Stream'.const (TokenKind.somewhere .endOfInput)
  have hts : ts.map Token.kind = ks := map_kind_somewhere ks
  have hhalts : Halts .primary [] .endOfInput .unexpectedEnd := .noOperand rfl nofun
  have hprimary : Rule.primary.Rejects s := hhalts.rejects List.map_nil rfl nofun
  obtain ⟨b, ha⟩ := hd.accepts ts s hts (TokenKind.expression_lt_reach (.inl rfl))
  exact h.rejects hts hprimary b root s ha

end Rule

section
variable {source : String} {used : List Token} {rest : Stream' Token} {limit : Nat} {e : ParseError}

/-- The tokens of the source are those taken, the upcoming one, and others. -/
theorem exists_tokens_eq_append (hs : stream source = used ++ₛ rest)
    (hused : ∀ k ∈ used.map Token.kind, k.isFinal = false) :
    ∃ more, tokens source = used ++ rest.head :: more := by
  obtain ⟨-, -, htake⟩ := tokens_take hs hused
  refine ⟨(tokens source).drop (used.length + 1), ?_⟩
  rw [List.append_cons, ← htake, List.take_append_drop]

theorem ParseError.leftover_of_accepts {b : Nat} {root : Expr}
    (ha : Accepts b .expression (stream source) root rest) :
    ParseError.Leftover source
      ⟨rest.head.kind.misplaced (.unexpected rest.head.kind), [], rest.head⟩ := by
  obtain ⟨used, hs, hd⟩ := ha.derives
  obtain ⟨more, htokens⟩ := exists_tokens_eq_append hs hd.isFinal_eq_false
  refine ⟨used, more, root, htokens, hd, ?_⟩
  -- A malformed token would have been noticed within the expression.
  have hreach := ha.height_lt_reach nofun
  cases hk : rest.head.kind with
  | malformed x => rw [hk] at hreach; exact absurd hreach (Nat.not_lt_zero _)
  | _ => rfl

/-- An expression with a token left over is parsed to its end. -/
theorem Fails.not_leftover {s' : Stream' Token}
    (h : Fails limit limit [] .expression (stream source) e s') : ¬ e.Leftover source := by
  rintro ⟨used, more, root, htokens, hd, hfault⟩
  have hlimit : ¬ e.fault.IsTooDeep := by
    rw [hfault]
    rintro ⟨m, hm⟩
    cases hm
  obtain ⟨used', halted, rest, q, hs, ht, hr, hh⟩ := h.exists_halts hlimit
  obtain ⟨rfl, hnil⟩ := hh.of_unexpected hfault
  obtain rfl := List.map_eq_nil_iff.mp hnil
  obtain ⟨more', htokens'⟩ := exists_tokens_eq_append hs hr.isFinal_eq_false
  -- The token of the error stands in one place only.
  have hnodup : (tokens source).Nodup :=
    (pairwise_offset_tokens source).imp fun hlt heq => by rw [heq] at hlt; exact Nat.lt_irrefl _ hlt
  change tokens source = used' ++ rest.head :: more' at htokens'
  rw [ht] at htokens'
  rw [htokens, List.nodup_middle, List.nodup_cons, List.mem_append, not_or] at hnodup
  obtain ⟨hbefore, hafter⟩ := hnodup.1
  obtain ⟨rfl, -, -⟩ :=
    (List.append_cons_inj_of_notMem hbefore hafter).mp (htokens.symm.trans htokens')
  exact hr.not_derives root hd

theorem Fails.trail {s' : Stream' Token}
    (h : Fails limit limit [] .expression (stream source) e s') : e.Trail limit source := by
  rcases h.arises with ⟨⟨m, hdeep⟩, hrules, rfl⟩ |
    ⟨used, rest, trail, q, hs, hrules, hd, hend⟩
  · rw [List.reverse_nil] at hrules
    refine ⟨.inl hrules, by rw [hrules]; exact .nil, ?_, iff_of_true hrules (.inl rfl),
      fun hne => absurd hrules hne⟩
    rw [hdeep]
    trivial
  · rw [List.reverse_nil, List.nil_append] at hrules
    subst hrules
    have hhead := hd.head?_eq
    have hne : e.rules ≠ [] := by
      intro hnil
      rw [hnil] at hhead
      cases hhead
    refine ⟨.inr hhead, hd.isChain, ?_, iff_of_false hne ?_, fun _ => ?_⟩
    · rw [hd.getLast?_eq]
      rcases hend with ⟨m, hdeep⟩ | ⟨halted, rest', -, -, hh⟩
      · rw [hdeep]
        trivial
      · exact hh.endsTrail
    · rintro (rfl | hleft)
      · cases h
        exact hne rfl
      · exact h.not_leftover hleft
    · obtain ⟨more, htokens⟩ := exists_tokens_eq_append hs hd.reaches.isFinal_eq_false
      exact ⟨used, _, q, htokens, hd⟩

end

/-- The rules that a failed parse reports are calls of the grammar from the root rule on, and the
parse has come through them. None is reported if and only if a whole expression was parsed and the
token after it is unexpected, or the limit is zero. The innermost one is the primary rule where an
operand or a parenthesis is missing, the rule of member access where a name is missing, and one of the
two where a token is malformed. When a rule returns, whether it has failed or not, the same rules are
active as when it was called. -/
theorem parseWith_error_trail (limit : Nat) (source : String) :
    (∀ e, (parseWith limit source).result = .error e → e.Trail limit source) ∧
      ∀ budget r (p : Parser Window), (ParseM.rule limit budget r p).2.active = p.active := by
  refine ⟨fun e h => ?_, fun budget r p => ParseM.Balanced.rule limit budget r p⟩
  rw [← program_stream_result] at h
  rcases accepts_or_fails limit limit [] .expression (stream source) with
    ⟨root, rest, ha⟩ | ⟨e', s', hf⟩
  · rw [ha.program_eq, Expr.finish] at h
    split at h
    · cases h
    · cases h
      have hleft := ParseError.leftover_of_accepts ha
      refine ⟨.inl rfl, .nil, ?_, iff_of_true rfl (.inr hleft), fun hne => absurd rfl hne⟩
      obtain ⟨-, -, -, -, -, hfault⟩ := hleft
      rw [hfault]
      exact .inl rfl
  · rw [hf.program_eq] at h
    cases h
    exact hf.trail

/-- The sum comes to its own rule again before the path is rejected. What is left over after a whole
expression is found when no rule is active. -/
theorem error_trail_path :
    (∃ e, (parseWith 16 "x - a . 1").result = .error e ∧ e.Trail 16 "x - a . 1" ∧
      e.rules = [.expression, .level .or, .level .and, .level .relation, .level .sum, .level .sum,
        .level .product, .deref]) ∧
    ∃ e, (parseWith 16 "x - a b").result = .error e ∧ e.Trail 16 "x - a b" ∧ e.rules = [] := by
  constructor
  · have h : ∃ token, (parseWith 16 "x - a . 1").result =
        .error ⟨.expectedIdentifier, [.expression, .level .or, .level .and, .level .relation,
          .level .sum, .level .sum, .level .product, .deref], token⟩ := ⟨_, rfl⟩
    obtain ⟨token, h⟩ := h
    exact ⟨_, h, (parseWith_error_trail 16 _).1 _ h, rfl⟩
  · have h : ∃ token, (parseWith 16 "x - a b").result =
        .error ⟨.unexpected (.identifier "b"), [], token⟩ := ⟨_, rfl⟩
    obtain ⟨token, h⟩ := h
    exact ⟨_, h, (parseWith_error_trail 16 _).1 _ h, rfl⟩

end PredicateLang
