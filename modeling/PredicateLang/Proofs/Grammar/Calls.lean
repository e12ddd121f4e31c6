import PredicateLang.Proofs.Grammar.Derivation

/-!
# Calls between rules

While a rule is parsed, it calls other rules after it has taken some tokens. A
parse that fails for another reason than the limit has come by such calls to a rule
that halts at the next token. What it has taken by then can be completed: each call
can, one in the path of a member access by one more access. And a rule that halts
rejects every stream that goes on with such a token, as do all the rules that led
to it. Only a path that turns out not to be a member is noticed after the fact.
-/

namespace PredicateLang

/-- A rule calls another after it has taken these tokens. -/
inductive Rule.Calls : Rule → List TokenKind → Rule → Prop
  | expression : Calls .expression [] (.level .or)
  | operand {l r} : Level.BuiltOver l r → Calls (.level l) [] r
  | right {l r ks e c op} : Level.BuiltOver l r → Derives r ks e → Level.Writes l c op →
      Calls (.level l) (ks ++ [.symbol c]) (.level l)
  | base : Calls .deref [] .primary
  | path {ks e} : Derives .primary ks e → Calls .deref (ks ++ [.symbol .dot]) .deref
  | inner : Calls .primary [.symbol .leftParen] .expression

/-- A rule comes to another by calls, in which it has taken these tokens. -/
inductive Rule.Reaches : Rule → List TokenKind → Rule → Prop
  | refl (r) : Reaches r [] r
  | step {r ks q ks' q'} : Rule.Calls r ks q → Reaches q ks' q' → Reaches r (ks ++ ks') q'

/-- A rule comes to another by calls, in which it has taken these tokens, and in which these rules
have become active one after another, itself the first. -/
inductive Rule.Descends : Rule → List TokenKind → List Rule → Rule → Prop
  | refl (r) : Descends r [] [r] r
  | step {r ks q ks' trail q'} : Rule.Calls r ks q → Descends q ks' trail q' →
      Descends r (ks ++ ks') (r :: trail) q'

/-- A rule that has taken these tokens stops at the next one. -/
inductive Rule.Halts : Rule → List TokenKind → TokenKind → ParseFault → Prop
  | noOperand {k} : k.primary? = none → k ≠ .symbol .leftParen → Halts .primary [] k k.noOperand
  | malformed {ks e x} : Derives .primary ks e → Halts .deref ks (.malformed x) (.lexical x)
  | unclosed {ks e k} : Derives .expression ks e → Rule.expression.height < k.reach →
      k ≠ .symbol .rightParen →
      Halts .primary (.symbol .leftParen :: ks) k (k.misplaced (.expected .rightParen))
  | notMember {ks e k} : Derives .primary ks e → (∀ name, k ≠ .identifier name) →
      Halts .deref (ks ++ [.symbol .dot]) k .expectedIdentifier

/-- A rule can go on from these tokens to an expression, the rule of paths to a member. -/
def Rule.Completable (r : Rule) (ks : List TokenKind) : Prop :=
  ∃ more e, Derives r (ks ++ more) e ∧ (r = .deref → e.isMember = true)

/-- No budget is enough for the rule to accept anything from the stream. -/
def Rule.Rejects (r : Rule) (s : Stream' Token) : Prop :=
  ∀ b e s', ¬ Accepts b r s e s'

theorem TokenKind.reach_ne_of_operator? {l : Level} {k : TokenKind} (h : l.operator? k = none) :
    k.reach ≠ (Rule.level l).height := by
  intro hreach
  cases k with
  | symbol c => cases l <;> cases c <;> simp [TokenKind.reach, Rule.height, Level.operator?] at hreach h
  | _ => cases l <;> cases hreach

theorem TokenKind.two_lt_reach {k : TokenKind} (hdot : k ≠ .symbol .dot)
    (hm : ∀ x, k ≠ .malformed x) : 2 < k.reach := by
  cases k with
  | malformed x => exact absurd rfl (hm x)
  | symbol c =>
    cases c with
    | dot => exact absurd rfl hdot
    | _ => decide
  | _ => exact Nat.lt_of_sub_eq_succ rfl

theorem TokenKind.reach_ne_eight (k : TokenKind) : k.reach ≠ 8 := by
  intro hreach
  cases k with
  | symbol c => cases c <;> cases hreach
  | _ => cases hreach

/-- What follows an accepted expression is out of the reach of the rule. A primary expression
alone does not look at what follows. -/
theorem Accepts.height_lt_reach {b : Nat} {r : Rule} {s s' : Stream' Token} {e : Expr}
    (h : Accepts b r s e s') (hr : r ≠ .primary) : r.height < s'.head.kind.reach := by
  induction h with
  | @expression b s e s' _ ih =>
    have hreach : 7 < s'.head.kind.reach := ih (by simp)
    have hne := s'.head.kind.reach_ne_eight
    change 8 < s'.head.kind.reach
    omega
  | @operand b s e s' l _ hop _ ih =>
    have hreach := ih (by cases l <;> simp [Level.operand])
    have hne := TokenKind.reach_ne_of_operator? hop
    have hl := l.height_operand
    omega
  | binary _ _ _ _ ihr => exact ihr (by simp)
  | base _ hdot hm _ => exact TokenKind.two_lt_reach hdot hm
  | member _ _ _ _ _ ihp => exact ihp (by simp)
  | atom | group => exact absurd rfl hr

/-- Derivable tokens before one that stays out of reach are accepted, and by no budget otherwise. -/
theorem Derives.eq_of_accepts {r : Rule} {ts : List Token} {e e' : Expr} {s s' : Stream' Token}
    {b : Nat} (h : Derives r (ts.map Token.kind) e) (hs : r.height < s.head.kind.reach)
    (ha : Accepts b r (ts ++ₛ s) e' s') : e' = e ∧ s' = s := by
  obtain ⟨b', ha'⟩ := h.accepts ts s rfl hs
  exact ha.unique ha'

/-- A primary expression is accepted whatever comes after it. -/
theorem Derives.eq_of_accepts_primary {ts : List Token} {e e' : Expr} {s s' : Stream' Token}
    {b : Nat} (h : Derives .primary (ts.map Token.kind) e)
    (ha : Accepts b .primary (ts ++ₛ s) e' s') : e' = e ∧ s' = s := by
  generalize hks : ts.map Token.kind = ks at h
  cases h with
  | atom hatom =>
    obtain ⟨t, rfl, rfl⟩ := List.map_eq_singleton_iff.mp hks
    exact ha.unique (Accepts.atom (b := 0) (s := [t] ++ₛ s) (primary?_eq_some_iff.mpr hatom))
  | group hd =>
    obtain ⟨t, us, rfl, ht, hus⟩ := List.map_eq_cons_iff.mp hks
    obtain ⟨us, vs, rfl, rfl, hvs⟩ := List.map_eq_append_iff.mp hus
    obtain ⟨u, rfl, hu⟩ := List.map_eq_singleton_iff.mp hvs
    have hreach := TokenKind.expression_lt_reach (.inr hu)
    obtain ⟨b', hinner⟩ := hd.accepts us ([u] ++ₛ s) rfl hreach
    rw [← Stream'.append_append_stream] at hinner
    exact ha.unique (Accepts.group (s := (t :: (us ++ [u])) ++ₛ s) ht hinner hu)

namespace Rule

section
variable {r q : Rule} {ts : List Token} {s : Stream' Token}

/-- If a called rule rejects what comes, so does the rule that calls it. -/
theorem Calls.rejects {ks : List TokenKind} (h : Calls r ks q) (hts : ts.map Token.kind = ks)
    (hq : q.Rejects s) : r.Rejects (ts ++ₛ s) := by
  intro b e s' ha
  cases h with
  | expression =>
    obtain rfl := List.map_eq_nil_iff.mp hts
    cases ha with
    | expression ha => exact hq _ _ _ ha
  | operand hb =>
    obtain rfl := List.map_eq_nil_iff.mp hts
    obtain rfl := Level.builtOver_iff.mp hb
    cases ha with
    | operand ha _ _ => exact hq _ _ _ ha
    | binary ha _ _ => exact hq _ _ _ ha
  | @right l r ks left c op hb hd hw =>
    obtain ⟨ts, us, rfl, rfl, hus⟩ := List.map_eq_append_iff.mp hts
    obtain ⟨t, rfl, ht⟩ := List.map_eq_singleton_iff.mp hus
    obtain rfl := Level.builtOver_iff.mp hb
    have hop := Level.operator?_eq_some_iff.mpr ⟨c, ht, hw⟩
    have hreach : l.operand.height < t.kind.reach := by
      rw [TokenKind.reach_of_operator? hop, ← l.height_operand]
      exact Nat.lt_add_one _
    rw [Stream'.append_append_stream] at ha
    -- The left side ends before the operator, so whatever is accepted has come to the call.
    cases ha with
    | operand ha hnone _ =>
      obtain ⟨rfl, rfl⟩ := hd.eq_of_accepts (s := [t] ++ₛ s) hreach ha
      change l.operator? t.kind = none at hnone
      rw [hop] at hnone
      cases hnone
    | binary ha _ hright =>
      obtain ⟨rfl, rfl⟩ := hd.eq_of_accepts (s := [t] ++ₛ s) hreach ha
      exact hq _ _ _ hright
  | base =>
    obtain rfl := List.map_eq_nil_iff.mp hts
    cases ha with
    | base ha _ _ => exact hq _ _ _ ha
    | member ha _ _ _ => exact hq _ _ _ ha
  | @path ks base hd =>
    obtain ⟨ts, us, rfl, rfl, hus⟩ := List.map_eq_append_iff.mp hts
    obtain ⟨t, rfl, ht⟩ := List.map_eq_singleton_iff.mp hus
    rw [Stream'.append_append_stream] at ha
    cases ha with
    | base ha hdot _ =>
      obtain ⟨rfl, rfl⟩ := hd.eq_of_accepts_primary (s := [t] ++ₛ s) ha
      exact hdot ht
    | member ha _ hpath _ =>
      obtain ⟨rfl, rfl⟩ := hd.eq_of_accepts_primary (s := [t] ++ₛ s) ha
      exact hq _ _ _ hpath
  | inner =>
    obtain ⟨t, rfl, ht⟩ := List.map_eq_singleton_iff.mp hts
    cases ha with
    | atom hatom =>
      change t.kind.primary? = some e at hatom
      rw [ht] at hatom
      cases hatom
    | group _ hinner _ => exact hq _ _ _ hinner

theorem Reaches.rejects {ks : List TokenKind} (h : Reaches r ks q) (hts : ts.map Token.kind = ks)
    (hq : q.Rejects s) : r.Rejects (ts ++ₛ s) := by
  induction h generalizing ts with
  | refl =>
    obtain rfl := List.map_eq_nil_iff.mp hts
    exact hq
  | step hcall _ ih =>
    obtain ⟨ts₁, ts₂, rfl, hts₁, hts₂⟩ := List.map_eq_append_iff.mp hts
    rw [Stream'.append_append_stream]
    exact hcall.rejects hts₁ (ih hts₂ hq)

/-- A rule that halts at a token rejects everything that goes on with such a token, unless it has
already looked past it. -/
theorem Halts.rejects {ks : List TokenKind} {k : TokenKind} {fault : ParseFault}
    (h : Halts r ks k fault) (hts : ts.map Token.kind = ks) (hs : s.head.kind = k)
    (hfault : fault ≠ .expectedIdentifier) : r.Rejects (ts ++ₛ s) := by
  intro b e s' ha
  cases h with
  | noOperand hp hl =>
    obtain rfl := List.map_eq_nil_iff.mp hts
    change Accepts b .primary s e s' at ha
    cases ha with
    | atom hatom => rw [hs, hp] at hatom; cases hatom
    | group hparen _ _ => exact hl (hs ▸ hparen)
  | @malformed ks base x hd =>
    subst hts
    cases ha with
    | base ha _ hm =>
      obtain ⟨_, rfl⟩ := hd.eq_of_accepts_primary ha
      exact hm x hs
    | member ha hdot _ _ =>
      obtain ⟨_, rfl⟩ := hd.eq_of_accepts_primary ha
      rw [hs] at hdot
      cases hdot
  | unclosed hd hreach hr =>
    obtain ⟨t, ts, rfl, ht, rfl⟩ := List.map_eq_cons_iff.mp hts
    cases ha with
    | atom hatom =>
      change t.kind.primary? = some e at hatom
      rw [ht] at hatom
      cases hatom
    | group _ hinner hclose =>
      -- The token is out of reach of the inner expression, so it should be the parenthesis.
      obtain ⟨_, rfl⟩ := hd.eq_of_accepts (hs ▸ hreach) hinner
      exact hr (hs ▸ hclose)
  | notMember => exact hfault rfl

/-- A call that can be completed completes the rule that calls. A path gets one more access, so
that it is a member whatever it began with. -/
theorem Calls.completable {ks ks' : List TokenKind} (h : Calls r ks q)
    (hq : q.Completable ks') : r.Completable (ks ++ ks') := by
  obtain ⟨more, e, hd, hmember⟩ := hq
  cases h with
  | expression => exact ⟨more, e, .expression hd, nofun⟩
  | operand hb => exact ⟨more, e, .operand hb hd, nofun⟩
  | @right _ _ ks left c op hb hl hw =>
    refine ⟨more, .binary op left e, ?_, nofun⟩
    simp only [List.append_assoc, List.singleton_append]
    exact .binary hb hl hw hd
  | base =>
    refine ⟨more ++ [.symbol .dot, .identifier "x"], .member e (.identifier "x"), ?_, fun _ => rfl⟩
    rw [List.nil_append, ← List.append_assoc]
    exact .member hd (.base (.atom (.identifier "x"))) rfl
  | @path ks base hb =>
    refine ⟨more, .member base e, ?_, fun _ => rfl⟩
    simp only [List.append_assoc, List.singleton_append]
    exact .member hb hd (hmember rfl)
  | inner =>
    refine ⟨more ++ [.symbol .rightParen], e, ?_, nofun⟩
    simp only [List.cons_append, ← List.append_assoc]
    exact .group hd

theorem Reaches.completable {ks ks' : List TokenKind} (h : Reaches r ks q)
    (hq : q.Completable ks') : r.Completable (ks ++ ks') := by
  induction h with
  | refl => exact hq
  | step hcall _ ih =>
    rw [List.append_assoc]
    exact hcall.completable (ih hq)

theorem Descends.reaches {ks : List TokenKind} {trail : List Rule} (h : Descends r ks trail q) :
    Reaches r ks q := by
  induction h with
  | refl => exact .refl _
  | step hcall _ ih => exact .step hcall ih

/-- What a rule has taken where it halts can be completed. -/
theorem Halts.completable {ks : List TokenKind} {k : TokenKind} {fault : ParseFault}
    (h : Halts r ks k fault) : r.Completable ks := by
  have hname : Derives .primary [.identifier "x"] (.identifier "x") := .atom (.identifier "x")
  cases h with
  | noOperand => exact ⟨_, _, hname, nofun⟩
  | malformed hd => exact ⟨_, _, .member hd (.base hname) rfl, fun _ => rfl⟩
  | unclosed hd => exact ⟨_, _, .group hd, nofun⟩
  | @notMember ks base _ hd _ =>
    refine ⟨[.identifier "x"], .member base (.identifier "x"), ?_, fun _ => rfl⟩
    rw [List.append_assoc]
    exact .member hd (.base hname) rfl

theorem Calls.isFinal_eq_false {ks : List TokenKind} (h : Calls r ks q) :
    ∀ k ∈ ks, k.isFinal = false := by
  intro k hk
  cases h with
  | expression | operand | base => cases hk
  | right _ hd _ | path hd =>
    rcases List.mem_append.mp hk with hk | hk
    · exact hd.isFinal_eq_false k hk
    · obtain rfl := List.mem_singleton.mp hk
      rfl
  | inner =>
    obtain rfl := List.mem_singleton.mp hk
    rfl

theorem Reaches.isFinal_eq_false {ks : List TokenKind} (h : Reaches r ks q) :
    ∀ k ∈ ks, k.isFinal = false := by
  induction h with
  | refl => exact nofun
  | step hcall _ ih => exact List.forall_mem_append.mpr ⟨hcall.isFinal_eq_false, ih⟩

theorem Halts.isFinal_eq_false {ks : List TokenKind} {k : TokenKind} {fault : ParseFault}
    (h : Halts r ks k fault) : ∀ k ∈ ks, k.isFinal = false := by
  cases h with
  | noOperand => exact nofun
  | malformed hd => exact hd.isFinal_eq_false
  | unclosed hd => exact List.forall_mem_cons.mpr ⟨rfl, hd.isFinal_eq_false⟩
  | notMember hd _ =>
    exact List.forall_mem_append.mpr ⟨hd.isFinal_eq_false, List.forall_mem_singleton.mpr rfl⟩

end
end Rule

/-- A path that starts with a name is a member. -/
theorem Accepts.isMember_of_identifier {b : Nat} {s s' : Stream' Token} {e : Expr} {name : String}
    (h : Accepts b .deref s e s') (hs : s.head.kind = .identifier name) : e.isMember = true := by
  cases h with
  | base hb _ _ =>
    cases hb with
    | atom hatom =>
      rw [hs] at hatom
      cases hatom
      rfl
    | group hparen _ _ =>
      rw [hs] at hparen
      cases hparen
  | member => rfl

theorem append_head_tail (ts : List Token) (s : Stream' Token) :
    ts ++ₛ s = (ts ++ [s.head]) ++ₛ s.tail := by
  rw [Stream'.append_append_stream, Stream'.append_stream_head_tail]

/-- The error comes of a rule that starts on the stream with the rules `a` active. By calls it has
come to a rule that halts at the token of the error, or to the last one that the limit allows. The
rules that became active on the way stand in the error. -/
def ParseError.Arises (e : ParseError) (a : List Rule) (r : Rule) (s : Stream' Token) : Prop :=
  ∃ used rest trail q, s = used ++ₛ rest ∧ e.rules = a.reverse ++ trail ∧
    r.Descends (used.map Token.kind) trail q ∧
    (e.fault.IsTooDeep ∨ ∃ halted rest', rest = halted ++ₛ rest' ∧ rest'.head = e.token ∧
      q.Halts (halted.map Token.kind) e.token.kind e.fault)

namespace ParseError

variable {e : ParseError} {a : List Rule} {r q : Rule} {s s₁ : Stream' Token}

theorem Arises.halt (halted : List Token) {rest : Stream' Token} (hs : s = halted ++ₛ rest)
    (ht : rest.head = e.token) (hh : r.Halts (halted.map Token.kind) e.token.kind e.fault)
    (hrules : e.rules = (r :: a).reverse) : e.Arises a r s :=
  ⟨[], s, [r], r, rfl, by rw [hrules, List.reverse_cons], .refl r, .inr ⟨halted, rest, hs, ht, hh⟩⟩

/-- An error in a called rule is an error of the rule that calls, which is active by then. -/
theorem Arises.call {b : Nat} (taken : List Token) (hcall : r.Calls (taken.map Token.kind) q)
    (hs : s = taken ++ₛ s₁)
    (h : e.fault.IsTooDeep ∧ e.rules = (r :: a).reverse ∧ b = 0 ∨ e.Arises (r :: a) q s₁) :
    e.Arises a r s := by
  rcases h with ⟨hdeep, hrules, -⟩ | ⟨used, rest, trail, q', rfl, hrules, hd, hh⟩
  · exact ⟨[], s, [r], r, rfl, by rw [hrules, List.reverse_cons], .refl r, .inl hdeep⟩
  · refine ⟨taken ++ used, rest, r :: trail, q', ?_, ?_, ?_, hh⟩
    · rw [hs, Stream'.append_append_stream]
    · rw [hrules, List.reverse_cons, List.append_assoc, List.singleton_append]
    · rw [List.map_append]
      exact .step hcall hd

end ParseError

/-- A failure comes of the rule, unless not even this rule could become active. -/
theorem Fails.arises {limit b : Nat} {a : List Rule} {r : Rule} {s s' : Stream' Token}
    {e : ParseError} (h : Fails limit b a r s e s') :
    e.fault.IsTooDeep ∧ e.rules = a.reverse ∧ b = 0 ∨ e.Arises a r s := by
  -- A failure in a called rule comes one call later there; the others are the halts themselves.
  induction h with
  | tooDeep => exact .inl ⟨⟨limit, rfl⟩, rfl, rfl⟩
  | expression _ ih => exact .inr (.call [] .expression rfl ih)
  | operand _ ih =>
    exact .inr (.call [] (.operand (Level.builtOver_iff.mpr rfl)) rfl ih)
  | @afterOperand b a s left s' l x hl hx =>
    -- The operand has looked at the token before, and would not have been accepted.
    have hreach := hl.height_lt_reach (by cases l <;> simp [Level.operand])
    rw [hx] at hreach
    exact absurd hreach (Nat.not_lt_zero _)
  | @right b a s left s₁ e s₂ l op hl hop _ ih =>
    obtain ⟨ts, rfl, hd⟩ := hl.derives
    obtain ⟨c, hc, hw⟩ := Level.operator?_eq_some_iff.mp hop
    refine .inr (.call (ts ++ [s₁.head]) ?_ (append_head_tail ts s₁) ih)
    rw [List.map_append, List.map_singleton, hc]
    exact .right (Level.builtOver_iff.mpr rfl) hd hw
  | base _ ih => exact .inr (.call [] .base rfl ih)
  | @afterBase b a s base s' x hb hx =>
    obtain ⟨ts, hs, hd⟩ := hb.derives
    refine .inr (.halt ts hs rfl ?_ rfl)
    rw [hx]
    exact .malformed hd
  | @path b a s base s₁ e s₂ hb hdot _ ih =>
    obtain ⟨ts, rfl, hd⟩ := hb.derives
    refine .inr (.call (ts ++ [s₁.head]) ?_ (append_head_tail ts s₁) ih)
    rw [List.map_append, List.map_singleton, hdot]
    exact .path hd
  | @notMember b a s base s₁ path s₂ hb hdot hp hm =>
    obtain ⟨ts, rfl, hd⟩ := hb.derives
    refine .inr (.halt (ts ++ [s₁.head]) (append_head_tail ts s₁) rfl ?_ rfl)
    rw [List.map_append, List.map_singleton, hdot]
    refine .notMember hd fun name hname => ?_
    rw [hp.isMember_of_identifier hname] at hm
    cases hm
  | @inner b a s e s₁ hl _ ih =>
    refine .inr (.call [s.head] ?_ (Stream'.eta s).symm ih)
    rw [List.map_singleton, hl]
    exact .inner
  | @unclosed b a s inner s₁ hl hi hr =>
    obtain ⟨ts, hs, hd⟩ := hi.derives
    refine .inr (.halt (s.head :: ts) (append_head hs) rfl ?_ rfl)
    rw [List.map_cons, hl]
    exact .unclosed hd (hi.height_lt_reach nofun) hr
  | noOperand hp hl => exact .inr (.halt [] rfl rfl (.noOperand hp hl) rfl)

/-- A parse that fails for another reason than the limit has come, by calls, to a rule that halts
at the token it reports. -/
theorem Fails.exists_halts {limit b : Nat} {a : List Rule} {r : Rule} {s s' : Stream' Token}
    {e : ParseError} (h : Fails limit b a r s e s') (he : ¬ e.fault.IsTooDeep) :
    ∃ used halted rest q, s = used ++ₛ (halted ++ₛ rest) ∧ rest.head = e.token ∧
      r.Reaches (used.map Token.kind) q ∧ q.Halts (halted.map Token.kind) e.token.kind e.fault := by
  rcases h.arises with ⟨hdeep, -⟩ | ⟨used, _, trail, q, hs, -, hd, hdeep | ⟨halted, rest, rfl, ht, hh⟩⟩
  · exact absurd hdeep he
  · exact absurd hdeep he
  · exact ⟨used, halted, rest, q, hs, ht, hd.reaches, hh⟩

end PredicateLang
