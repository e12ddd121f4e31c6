import PredicateLang.Grammar.Parse
import PredicateLang.Proofs.Token.Stream

/-!
# Parsing does not see how tokens are kept

A map between two sources that hand out the same tokens carries every step of
the parser along: the same result, and states that correspond. A window is
thereby as good as the endless stream that it shows, and a parse of a source is
a parse of its stream.
-/

namespace PredicateLang

instance : TokenSource (Stream' Token) where
  peek _ _ s := (s.head, s)
  next _ _ s := (s.head, s.tail)

/-- `f` leads from one source to another that hands out the same tokens. -/
structure SameTokens {σ τ : Type} [TokenSource σ] [TokenSource τ] (f : σ → τ) : Prop where
  peek : ∀ role active s, TokenSource.peek role active (f s) =
    ((TokenSource.peek role active s).1, f (TokenSource.peek role active s).2)
  next : ∀ role active s, TokenSource.next role active (f s) =
    ((TokenSource.next role active s).1, f (TokenSource.next role active s).2)

/-- A window hands out what its stream hands out. -/
theorem sameTokens_stream : SameTokens Window.stream where
  peek _ _ w := by
    obtain ⟨htoken, hstream⟩ := w.upcoming_eq 0
    exact Prod.ext htoken.symm hstream.symm
  next _ _ w := by
    obtain ⟨htoken, hstream⟩ := w.next_eq
    exact Prod.ext htoken.symm hstream.symm

variable {σ τ α β : Type}

/-- The parser with another source in the place of its own. -/
def Parser.map (f : σ → τ) (p : Parser σ) : Parser τ :=
  ⟨f p.tokens, p.active⟩

namespace ParseM

/-- The step `y` does to the source behind `f` what `x` does to the source before it. -/
def Follows (f : σ → τ) (y : ParseM τ α) (x : ParseM σ α) : Prop :=
  ∀ p, y (p.map f) = ((x p).1, (x p).2.map f)

namespace Follows

variable {f : σ → τ}

theorem pure (a : α) : Follows f (pure a) (pure a) := fun _ => rfl

theorem fail (fault : ParseFault) (token : Token) :
    Follows f (ParseM.fail fault token : ParseM τ α) (ParseM.fail fault token) := fun _ => rfl

theorem bind {y : ParseM τ α} {x : ParseM σ α} {k' : α → ParseM τ β} {k : α → ParseM σ β}
    (h : Follows f y x) (hk : ∀ a, Follows f (k' a) (k a)) : Follows f (y >>= k') (x >>= k) := by
  intro p
  rw [bind_apply, bind_apply, h p]
  rcases x p with ⟨_ | a, q⟩
  · rfl
  · exact hk a q

theorem within (r : Rule) {y : ParseM τ α} {x : ParseM σ α} (h : Follows f y x) :
    Follows f (ParseM.within r y) (ParseM.within r x) := by
  intro p
  have hr := h { p with active := r :: p.active }
  simp only [ParseM.within]
  change y ⟨f p.tokens, r :: p.active⟩ = _ at hr
  rw [show (p.map f).active = p.active from rfl, show (p.map f).tokens = f p.tokens from rfl, hr]
  rfl

variable [TokenSource σ] [TokenSource τ]

theorem peek (hf : SameTokens f) (role : Role) : Follows f (ParseM.peek role) (ParseM.peek role) := by
  intro p
  simp only [ParseM.peek, Parser.map, hf.peek]

theorem next (hf : SameTokens f) (role : Role) : Follows f (ParseM.next role) (ParseM.next role) := by
  intro p
  simp only [ParseM.next, Parser.map, hf.next]

theorem checkLexical (hf : SameTokens f) : Follows f ParseM.checkLexical ParseM.checkLexical := by
  refine (peek hf .operator).bind fun token => ?_
  split
  · exact fail _ _
  · exact pure _

theorem expect (hf : SameTokens f) (wanted : Symbol) :
    Follows f (ParseM.expect wanted) (ParseM.expect wanted) := by
  refine (next hf .operator).bind fun token => ?_
  split
  · split
    · exact pure _
    · exact fail _ _
  · exact fail _ _

theorem rule (hf : SameTokens f) (limit budget : Nat) (r : Rule) :
    Follows f (ParseM.rule limit budget r) (ParseM.rule limit budget r) := by
  induction budget generalizing r with
  | zero => exact (peek hf .operand).bind fun token => fail _ _
  | succ budget ih =>
    refine within r ?_
    cases r with
    | expression => exact ih _
    | level l =>
      refine (ih _).bind fun left => (peek hf .operator).bind fun token => ?_
      split
      · exact (checkLexical hf).bind fun _ => pure _
      · exact (next hf .operator).bind fun _ => (ih _).bind fun _ => pure _
    | deref =>
      refine (ih _).bind fun base => (peek hf .operator).bind fun token => ?_
      split
      · refine (next hf .operator).bind fun _ => (peek hf .operand).bind fun _ => (ih _).bind fun path => ?_
        split
        · exact pure _
        · exact fail _ _
      · exact (checkLexical hf).bind fun _ => pure _
    | primary =>
      refine (next hf .operand).bind fun token => ?_
      split
      · exact (ih _).bind fun _ => (expect hf _).bind fun _ => pure _
      · exact fail _ _
      · split
        · exact pure _
        · exact fail _ _

theorem program (hf : SameTokens f) (limit : Nat) :
    Follows f (ParseM.program limit) (ParseM.program limit) := by
  refine (rule hf limit limit .expression).bind fun root => (next hf .operator).bind fun token => ?_
  split
  · exact pure _
  · exact fail _ _

end Follows
end ParseM

/-- What a parse yields is what a parse of the stream of the source yields. -/
theorem program_stream (limit : Nat) (source : String) :
    ParseM.program limit ⟨stream source, []⟩ =
      ((parseWith limit source).result,
        (ParseM.program limit (Parser.start source)).2.map Window.stream) :=
  ParseM.Follows.program sameTokens_stream limit (Parser.start source)

theorem program_stream_result (limit : Nat) (source : String) :
    (ParseM.program limit ⟨stream source, []⟩).1 = (parseWith limit source).result := by
  rw [program_stream]

end PredicateLang
