import PredicateLang.Proofs.Grammar.Outcome

/-!
# What a larger budget changes

A parse that was not cut off goes the same way with every larger budget. One
that was cut off stopped with all of its budget in active rules, at a token that
it had not taken. Every eight nested rules take at least one token, so a budget
in proportion to the tokens up to the last one is never used up.
-/

namespace PredicateLang

/-- The number of rules from a rule down to a primary expression, both included. -/
def Rule.height : Rule → Nat
  | .expression => 8
  | .level .or => 7
  | .level .and => 6
  | .level .relation => 5
  | .level .sum => 4
  | .level .product => 3
  | .deref => 2
  | .primary => 1

theorem Level.height_operand (l : Level) : l.operand.height + 1 = (Rule.level l).height := by
  cases l <;> rfl

/-- The fault blames the limit on active rules. -/
def ParseFault.IsTooDeep (fault : ParseFault) : Prop :=
  ∃ limit, fault = .tooDeep limit

theorem TokenKind.misplaced_not_tooDeep {fault : ParseFault} (h : ¬ fault.IsTooDeep)
    (k : TokenKind) : ¬ (k.misplaced fault).IsTooDeep := by
  cases k with
  | malformed x => rintro ⟨m, hm⟩; cases hm
  | _ => exact h

theorem TokenKind.noOperand_not_tooDeep (k : TokenKind) : ¬ k.noOperand.IsTooDeep := by
  cases k with
  | endOfInput | malformed => rintro ⟨m, hm⟩; cases hm
  | _ => rintro ⟨m, hm⟩; cases hm

theorem TokenKind.isFinal_of_primary? {k : TokenKind} {e : Expr} (h : k.primary? = some e) :
    k.isFinal = false := by
  cases k with
  | endOfInput => cases h
  | malformed x => cases h
  | _ => rfl

theorem TokenKind.isFinal_of_operator? {k : TokenKind} {l : Level} {op : BinaryOp}
    (h : l.operator? k = some op) : k.isFinal = false := by
  cases k with
  | symbol c => rfl
  | _ => cases l <;> cases h

variable {limit b b' : Nat} {a : List Rule} {r : Rule} {s s' : Stream' Token}
  {ts : List Token} {last : Token}

namespace Accepts

variable {e : Expr}

theorem add (h : Accepts b r s e s') (n : Nat) : Accepts (n + b) r s e s' := by
  induction h with
  | expression _ ih => exact .expression ih
  | operand _ hop hm ih => exact .operand ih hop hm
  | binary _ hop _ ihl ihr => exact .binary ihl hop ihr
  | base _ hd hm ih => exact .base ih hd hm
  | member _ hd _ hp ihb ihp => exact .member ihb hd ihp hp
  | atom he => exact .atom he
  | group hl _ hr ih => exact .group hl ih hr

theorem mono (h : Accepts b r s e s') (hb : b ≤ b') : Accepts b' r s e s' := by
  have h' := h.add (b' - b)
  rwa [Nat.sub_add_cancel hb] at h'

/-- Two parses of the same stream accept the same, whatever their budgets. -/
theorem unique {e' : Expr} {s'' : Stream' Token} (h : Accepts b r s e s')
    (h' : Accepts b' r s e' s'') : e = e' ∧ s' = s'' := by
  have h₁ := (h.mono (Nat.le_max_left b b')).rule_eq 0 []
  have h₂ := (h'.mono (Nat.le_max_right b b')).rule_eq 0 []
  rw [h₁] at h₂
  cases h₂
  exact ⟨rfl, rfl⟩

/-- An accepted expression takes at least one token and never the last one. -/
theorem ends (h : Accepts b r s e s') (hs : Ends s ts last) :
    ∃ rest, rest.length < ts.length ∧ Ends s' rest last := by
  induction h generalizing ts with
  | expression _ ih => exact ih hs
  | operand _ _ _ ih => exact ih hs
  | binary _ hop _ ihl ihr =>
    obtain ⟨ts₁, hlt, hs₁⟩ := ihl hs
    obtain ⟨rest, rfl, htail⟩ := hs₁.exists_cons (TokenKind.isFinal_of_operator? hop)
    obtain ⟨ts₂, hlt', hs₂⟩ := ihr htail
    exact ⟨ts₂, by simp only [List.length_cons] at hlt; omega, hs₂⟩
  | base _ _ _ ih => exact ih hs
  | member _ hd _ _ ihb ihp =>
    obtain ⟨ts₁, hlt, hs₁⟩ := ihb hs
    obtain ⟨rest, rfl, htail⟩ := hs₁.exists_cons (by rw [hd]; rfl)
    obtain ⟨ts₂, hlt', hs₂⟩ := ihp htail
    exact ⟨ts₂, by simp only [List.length_cons] at hlt; omega, hs₂⟩
  | atom he =>
    obtain ⟨rest, rfl, htail⟩ := hs.exists_cons (TokenKind.isFinal_of_primary? he)
    exact ⟨rest, by simp, htail⟩
  | group hl _ hr ih =>
    obtain ⟨rest, rfl, htail⟩ := hs.exists_cons (by rw [hl]; rfl)
    obtain ⟨ts₁, hlt, hs₁⟩ := ih htail
    obtain ⟨ts₂, rfl, hs₂⟩ := hs₁.exists_cons (by rw [hr]; rfl)
    exact ⟨ts₂, by simp only [List.length_cons] at *; omega, hs₂⟩

end Accepts

namespace Fails

variable {e : ParseError}

theorem add (h : Fails limit b a r s e s') (he : ¬ e.fault.IsTooDeep) (n limit' : Nat) :
    Fails limit' (n + b) a r s e s' := by
  induction h with
  | tooDeep => exact absurd ⟨limit, rfl⟩ he
  | expression _ ih => exact .expression (ih he)
  | operand _ ih => exact .operand (ih he)
  | afterOperand hl hx => exact .afterOperand (hl.add n) hx
  | right hl hop _ ih => exact .right (hl.add n) hop (ih he)
  | base _ ih => exact .base (ih he)
  | afterBase hp hx => exact .afterBase (hp.add n) hx
  | path hp hd _ ih => exact .path (hp.add n) hd (ih he)
  | notMember hp hd hq hm => exact .notMember (hp.add n) hd (hq.add n) hm
  | inner hl _ ih => exact .inner hl (ih he)
  | unclosed hl hi hr => exact .unclosed hl (hi.add n) hr
  | noOperand hp hl => exact .noOperand hp hl

/-- A failure for another reason than the limit is the same under every larger budget. -/
theorem mono (h : Fails limit b a r s e s') (he : ¬ e.fault.IsTooDeep) (hb : b ≤ b')
    (limit' : Nat) : Fails limit' b' a r s e s' := by
  have h' := h.add he (b' - b) limit'
  rwa [Nat.sub_add_cancel hb] at h'

/-- A parse that was cut off has its whole budget in active rules, and has not taken the token
that it reports. -/
theorem of_tooDeep (h : Fails limit b a r s e s') (he : e.fault.IsTooDeep) :
    e.fault = .tooDeep limit ∧ e.rules.length = a.length + b ∧ e.token = s'.head := by
  induction h with
  | tooDeep => exact ⟨rfl, List.length_reverse, rfl⟩
  | expression _ ih | operand _ ih | right _ _ _ ih | base _ ih | path _ _ _ ih | inner _ _ ih =>
    obtain ⟨hf, hr, ht⟩ := ih he
    exact ⟨hf, by rw [hr, List.length_cons]; omega, ht⟩
  | afterOperand | afterBase | notMember => obtain ⟨m, hm⟩ := he; cases hm
  | unclosed =>
    exact absurd he (TokenKind.misplaced_not_tooDeep (by rintro ⟨m, hm⟩; cases hm) _)
  | noOperand => exact absurd he (TokenKind.noOperand_not_tooDeep _)

/-- A budget of eight rules for each token before the last, and of the rules down to a primary
expression, is never used up. -/
theorem not_tooDeep (h : Fails limit b a r s e s') (hs : Ends s ts last)
    (hb : 8 * ts.length + r.height ≤ b) : ¬ e.fault.IsTooDeep := by
  induction h generalizing ts with
  | @tooDeep a r s => cases r with
    | level l => cases l <;> simp only [Rule.height] at hb <;> omega
    | _ => simp only [Rule.height] at hb; omega
  | expression _ ih =>
    refine ih hs ?_
    simp only [Rule.height] at *
    omega
  | @operand b a s e s' l _ ih =>
    have hl := l.height_operand
    exact ih hs (by omega)
  | right hl hop _ ih =>
    obtain ⟨ts₁, hlt, hs₁⟩ := hl.ends hs
    obtain ⟨rest, rfl, htail⟩ := hs₁.exists_cons (TokenKind.isFinal_of_operator? hop)
    refine ih htail ?_
    simp only [List.length_cons] at hlt
    omega
  | base _ ih =>
    refine ih hs ?_
    simp only [Rule.height] at *
    omega
  | path hp hd _ ih =>
    obtain ⟨ts₁, hlt, hs₁⟩ := hp.ends hs
    obtain ⟨rest, rfl, htail⟩ := hs₁.exists_cons (by rw [hd]; rfl)
    refine ih htail ?_
    simp only [List.length_cons, Rule.height] at *
    omega
  | inner hl _ ih =>
    obtain ⟨rest, rfl, htail⟩ := hs.exists_cons (by rw [hl]; rfl)
    refine ih htail ?_
    simp only [List.length_cons, Rule.height] at *
    omega
  | afterOperand | afterBase | notMember => rintro ⟨m, hm⟩; cases hm
  | unclosed => exact TokenKind.misplaced_not_tooDeep (by rintro ⟨m, hm⟩; cases hm) _
  | noOperand => exact TokenKind.noOperand_not_tooDeep _

/-- With fewer rules to go than lie above a primary expression every parse is cut off. -/
theorem of_lt_height (limit : Nat) (a : List Rule) (s : Stream' Token) (hb : b < r.height) :
    ∃ e s', Fails limit b a r s e s' ∧ e.fault.IsTooDeep := by
  induction b generalizing a r with
  | zero => exact ⟨_, _, .tooDeep, limit, rfl⟩
  | succ b ih =>
    cases r with
    | expression =>
      obtain ⟨e, s', h, he⟩ := ih (r := .level .or) (.expression :: a) (by simp only [Rule.height] at *; omega)
      exact ⟨e, s', .expression h, he⟩
    | level l =>
      have hl := l.height_operand
      obtain ⟨e, s', h, he⟩ := ih (r := l.operand) (.level l :: a) (by omega)
      exact ⟨e, s', .operand h, he⟩
    | deref =>
      obtain ⟨e, s', h, he⟩ := ih (r := .primary) (.deref :: a) (by simp only [Rule.height] at *; omega)
      exact ⟨e, s', .base h, he⟩
    | primary => simp only [Rule.height] at hb; omega

end Fails
end PredicateLang
