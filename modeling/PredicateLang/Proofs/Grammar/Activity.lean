import PredicateLang.Proofs.Grammar.Source

/-!
# Active rules

A rule is active from its start until it returns, with an expression or with an error.
A source of tokens is told at each request which rules are active. Here it keeps them,
which changes nothing about the parse. Every rule requests a token while it is active, so
what is kept shows all that are active at a time: above those that were active before a
rule started, there are never more than its budget.
-/

namespace PredicateLang

/-- A source of tokens, and the rules that were active at each request for a token so far, the
latest request first. -/
structure Activity (σ : Type) where
  tokens : σ
  requests : List (List Rule)

namespace Activity

variable {σ : Type} [TokenSource σ]

instance : TokenSource (Activity σ) where
  peek role active a :=
    let r := TokenSource.peek role active a.tokens
    (r.1, ⟨r.2, active :: a.requests⟩)
  next role active a :=
    let r := TokenSource.next role active a.tokens
    (r.1, ⟨r.2, active :: a.requests⟩)

/-- Keeping the requests does not change what is handed out. -/
theorem sameTokens_tokens : SameTokens (tokens : Activity σ → σ) :=
  ⟨fun _ _ _ => rfl, fun _ _ _ => rfl⟩

end Activity

/-- The parser on a source that keeps the requests from now on. -/
def Parser.recorded {σ : Type} (p : Parser σ) : Parser (Activity σ) :=
  ⟨⟨p.tokens, []⟩, p.active⟩

theorem Parser.requests_recorded {σ : Type} (p : Parser σ) : p.recorded.tokens.requests = [] := rfl

namespace ParseM

variable {σ α β : Type}

/-- The rules that are active after a step are those that were active before it. -/
def Balanced (x : ParseM σ α) : Prop :=
  ∀ p, (x p).2.active = p.active

/-- A step that leaves the active rules as they are. At each of its requests for a token they are
still active, under at most `n` others. It makes such a request if it `asks`. -/
structure Confined (n : Nat) (asks : Prop) (x : ParseM (Activity σ) α) : Prop where
  balanced : Balanced x
  exists_requests : ∀ p, ∃ new, (x p).2.tokens.requests = new ++ p.tokens.requests ∧
    (asks → new ≠ []) ∧ ∀ active ∈ new, p.active <:+ active ∧ active.length ≤ p.active.length + n

namespace Confined

variable {n : Nat} {asks : Prop} {x : ParseM (Activity σ) α} {k : α → ParseM (Activity σ) β}

theorem pure (a : α) : Confined n False (Pure.pure a : ParseM (Activity σ) α) :=
  ⟨fun _ => rfl, fun _ => ⟨[], rfl, False.elim, by simp⟩⟩

theorem fail (fault : ParseFault) (token : Token) :
    Confined n False (ParseM.fail fault token : ParseM (Activity σ) α) :=
  ⟨fun _ => rfl, fun _ => ⟨[], rfl, False.elim, by simp⟩⟩

theorem bind (h : Confined n asks x) (hk : ∀ a, Confined n False (k a)) :
    Confined n asks (x >>= k) where
  balanced p := by
    have hx := h.balanced p
    rw [bind_apply]
    rcases hq : x p with ⟨_ | a, q⟩
    · rwa [hq] at hx
    · rw [hq] at hx
      exact ((hk a).balanced q).trans hx
  exists_requests p := by
    have hx := h.balanced p
    obtain ⟨first, hfirst, hne, hmem⟩ := h.exists_requests p
    rw [bind_apply]
    rcases hq : x p with ⟨_ | a, q⟩
    · rw [hq] at hfirst
      exact ⟨first, hfirst, hne, hmem⟩
    · rw [hq] at hx hfirst
      change q.active = p.active at hx
      obtain ⟨later, hlater, -, hmem'⟩ := (hk a).exists_requests q
      rw [hx] at hmem'
      refine ⟨later ++ first, ?_, fun hasks => ?_, fun active hactive => ?_⟩
      · rw [List.append_assoc, ← hfirst]
        exact hlater
      · exact List.append_ne_nil_of_right_ne_nil _ (hne hasks)
      · rcases List.mem_append.mp hactive with hactive | hactive
        · exact hmem' active hactive
        · exact hmem active hactive

/-- The rule that a step runs in is one more, and is active at its requests. -/
theorem exists_requests_within (r : Rule) (h : Confined n asks x) (p : Parser (Activity σ)) :
    ∃ new, (ParseM.within r x p).2.tokens.requests = new ++ p.tokens.requests ∧
      (asks → new ≠ []) ∧
      ∀ active ∈ new, r :: p.active <:+ active ∧ active.length ≤ p.active.length + (n + 1) := by
  obtain ⟨new, hnew, hne, hmem⟩ := h.exists_requests { p with active := r :: p.active }
  refine ⟨new, hnew, hne, fun active hactive => ?_⟩
  obtain ⟨hsuffix, hle⟩ := hmem active hactive
  refine ⟨hsuffix, hle.trans ?_⟩
  simp only [List.length_cons]
  omega

theorem within (r : Rule) (h : Confined n asks x) : Confined (n + 1) asks (ParseM.within r x) where
  balanced p := congrArg List.tail (h.balanced { p with active := r :: p.active })
  exists_requests p := by
    obtain ⟨new, hnew, hne, hmem⟩ := h.exists_requests_within r p
    refine ⟨new, hnew, hne, fun active hactive => ?_⟩
    obtain ⟨hsuffix, hle⟩ := hmem active hactive
    exact ⟨(List.suffix_cons r p.active).trans hsuffix, hle⟩

variable [TokenSource σ]

theorem peek (role : Role) : Confined n asks (ParseM.peek role : ParseM (Activity σ) Token) :=
  ⟨fun _ => rfl, fun p => ⟨[p.active], rfl, fun _ => by simp, by simp⟩⟩

theorem next (role : Role) : Confined n asks (ParseM.next role : ParseM (Activity σ) Token) :=
  ⟨fun _ => rfl, fun p => ⟨[p.active], rfl, fun _ => by simp, by simp⟩⟩

theorem checkLexical : Confined n asks (ParseM.checkLexical : ParseM (Activity σ) Unit) := by
  refine (peek .operator).bind fun token => ?_
  split
  · exact fail _ _
  · exact pure _

theorem expect (wanted : Symbol) :
    Confined n asks (ParseM.expect wanted : ParseM (Activity σ) Unit) := by
  refine (next .operator).bind fun token => ?_
  split
  · split
    · exact pure _
    · exact fail _ _
  · exact fail _ _

/-- What a rule does while it is active. -/
theorem exists_rule_eq_within {limit budget : Nat}
    (ih : ∀ asks r, Confined budget asks (ParseM.rule limit budget r : ParseM (Activity σ) Expr))
    (asks : Prop) (r : Rule) :
    ∃ x : ParseM (Activity σ) Expr,
      ParseM.rule limit (budget + 1) r = ParseM.within r x ∧ Confined budget asks x := by
  refine ⟨_, rfl, ?_⟩
  cases r with
  | expression => exact ih _ _
  | level l =>
    refine (ih _ _).bind fun left => (peek .operator).bind fun token => ?_
    split
    · exact checkLexical.bind fun _ => pure _
    · exact (next .operator).bind fun _ => (ih _ _).bind fun _ => pure _
  | deref =>
    refine (ih _ _).bind fun base => (peek .operator).bind fun token => ?_
    split
    · refine (next .operator).bind fun _ => (peek .operand).bind fun _ =>
        (ih _ _).bind fun path => ?_
      split
      · exact pure _
      · exact fail _ _
    · exact checkLexical.bind fun _ => pure _
  | primary =>
    refine (next .operand).bind fun token => ?_
    split
    · exact (ih _ _).bind fun _ => (expect _).bind fun _ => pure _
    · exact fail _ _
    · split
      · exact pure _
      · exact fail _ _

/-- A rule requests a token, and at each request no more rules than its budget are active in it. -/
theorem rule (limit budget : Nat) (asks : Prop) (r : Rule) :
    Confined budget asks (ParseM.rule limit budget r : ParseM (Activity σ) Expr) := by
  induction budget generalizing asks r with
  | zero => exact (peek .operand).bind fun token => fail _ _
  | succ budget ih =>
    obtain ⟨x, heq, hx⟩ := exists_rule_eq_within ih asks r
    rw [heq]
    exact hx.within r

end Confined

variable [TokenSource σ] {limit budget : Nat} {r : Rule} {p : Parser σ} {active : List Rule}

/-- A parse whose requests are kept is the parse itself. -/
theorem rule_recorded (limit budget : Nat) (r : Rule) (p : Parser σ) :
    rule limit budget r p =
      ((rule limit budget r p.recorded).1,
        (rule limit budget r p.recorded).2.map Activity.tokens) :=
  Follows.rule Activity.sameTokens_tokens limit budget r p.recorded

/-- Every rule that becomes active in a parse is released again, also when the parse fails. -/
theorem Balanced.rule (limit budget : Nat) (r : Rule) :
    Balanced (ParseM.rule limit budget r : ParseM σ Expr) := by
  intro p
  rw [rule_recorded]
  exact (Confined.rule limit budget False r).balanced p.recorded

/-- The active rules, innermost first, at each request for a token in a parse, the latest request
first. -/
def activations (limit budget : Nat) (r : Rule) (p : Parser σ) : List (List Rule) :=
  (rule limit budget r p.recorded).2.tokens.requests

/-- No more rules than the budget allows become active above those that already are. -/
theorem length_le_of_mem_activations (h : active ∈ activations limit budget r p) :
    active.length ≤ p.active.length + budget := by
  obtain ⟨new, hnew, -, hmem⟩ :=
    (Confined.rule limit budget False r).exists_requests p.recorded
  rw [activations, hnew, p.requests_recorded, List.append_nil] at h
  exact (hmem active h).2

/-- A rule that starts is active at a request, above the rules that were active before it. -/
theorem exists_mem_activations (limit budget : Nat) (r : Rule) (p : Parser σ) :
    ∃ active ∈ activations limit (budget + 1) r p, r :: p.active <:+ active := by
  obtain ⟨x, heq, hx⟩ :=
    Confined.exists_rule_eq_within (Confined.rule (σ := σ) limit budget) True r
  obtain ⟨new, hnew, hne, hmem⟩ := hx.exists_requests_within r p.recorded
  obtain ⟨active, hactive⟩ := List.exists_mem_of_ne_nil new (hne trivial)
  rw [activations, heq, hnew, p.requests_recorded, List.append_nil]
  exact ⟨active, hactive, (hmem active hactive).1⟩

end ParseM

end PredicateLang
