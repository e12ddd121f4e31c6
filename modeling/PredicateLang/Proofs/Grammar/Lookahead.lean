import PredicateLang.Proofs.Grammar.Source

/-!
# Looking ahead goes unnoticed

Before a parser parses what is left, its tokens can be looked at and taken one by one.
In whatever order this happens, the answers are those of the endless stream of the
source at a position that moves by one with every token taken and by nothing else.
The parse that follows is a parse of the stream from that position on.
-/

namespace PredicateLang

namespace Parser

/-- What can be asked of a parser that has not begun to parse. -/
inductive Call where
  | peek (n : Nat)
  | next
  deriving Repr, DecidableEq

inductive Answer where
  | token (t : Token)
  | overrun (o : Window.Overrun)

/-- The answer to a call, and the parser after it. -/
def perform (p : Parser Window) : Call → Answer × Parser Window
  | .peek n => match p.peek n with
    | .ok (t, p') => (.token t, p')
    | .error o => (.overrun o, p)
  | .next => (.token p.next.1, p.next.2)

/-- The answers to calls in a row, and the parser after them. -/
def performAll (p : Parser Window) : List Call → List Answer × Parser Window
  | [] => ([], p)
  | call :: calls =>
    let r := p.perform call
    let rest := r.2.performAll calls
    (r.1 :: rest.1, rest.2)

namespace Call

/-- The answer of a stream of which `k` tokens have been taken. No more than two of the tokens that
come next can be looked at. -/
def answer (s : Stream' Token) (k : Nat) : Call → Answer
  | .peek n => if n < 2 then .token (s.get (k + n)) else .overrun ⟨n + 1⟩
  | .next => .token (s.get k)

/-- How many tokens have been taken after a call before which it was `k`. -/
def taken (k : Nat) : Call → Nat
  | .peek _ => k
  | .next => k + 1

/-- The answers of a stream to calls in a row. -/
def answers (s : Stream' Token) : Nat → List Call → List Answer
  | _, [] => []
  | k, call :: calls => call.answer s k :: answers s (call.taken k) calls

end Call

/-- The parser stands in the stream after `k` tokens, and no rule is active. -/
structure StandsAt (s : Stream' Token) (k : Nat) (p : Parser Window) : Prop where
  stream : p.tokens.stream = s.drop k
  active : p.active = []

namespace StandsAt

variable {s : Stream' Token} {k : Nat} {p : Parser Window}

theorem start (source : String) : (Parser.start source).StandsAt (PredicateLang.stream source) 0 :=
  ⟨rfl, rfl⟩

theorem peek_of_lt {n : Nat} (h : p.StandsAt s k) (hn : n < 2) :
    ∃ p', p.peek n = .ok (s.get (k + n), p') ∧ p'.StandsAt s k := by
  obtain ⟨htoken, hstream⟩ := p.tokens.upcoming_eq n
  rw [h.stream, Stream'.get_drop] at htoken
  have hpeek : p.tokens.peek n = .ok (p.tokens.upcoming n) := if_pos hn
  refine ⟨{ p with tokens := (p.tokens.upcoming n).2 }, ?_, hstream.trans h.stream, h.active⟩
  rw [Parser.peek, hpeek, ← htoken]
  rfl

theorem peek_of_le {n : Nat} (hn : 2 ≤ n) : p.peek n = .error ⟨n + 1⟩ := by
  have hpeek : p.tokens.peek n = .error ⟨n + 1⟩ := if_neg (Nat.not_lt.mpr hn)
  rw [Parser.peek, hpeek]
  rfl

theorem next (h : p.StandsAt s k) : p.next.1 = s.get k ∧ p.next.2.StandsAt s (k + 1) := by
  obtain ⟨htoken, hstream⟩ := p.tokens.next_eq
  rw [h.stream] at htoken hstream
  rw [Stream'.head_drop] at htoken
  rw [Stream'.tail_drop'] at hstream
  exact ⟨htoken, hstream, h.active⟩

/-- A call is answered from the stream, and only a token that is taken moves the parser on. -/
theorem perform (h : p.StandsAt s k) (call : Call) :
    (p.perform call).1 = call.answer s k ∧ (p.perform call).2.StandsAt s (call.taken k) := by
  cases call with
  | peek n =>
    by_cases hn : n < 2
    · obtain ⟨p', hpeek, hp'⟩ := h.peek_of_lt hn
      have hanswer : (Call.peek n).answer s k = .token (s.get (k + n)) := if_pos hn
      rw [hanswer, Parser.perform, hpeek]
      exact ⟨rfl, hp'⟩
    · have hanswer : (Call.peek n).answer s k = .overrun ⟨n + 1⟩ := if_neg hn
      rw [hanswer, Parser.perform, peek_of_le (Nat.not_lt.mp hn)]
      exact ⟨rfl, h⟩
  | next =>
    obtain ⟨htoken, hp'⟩ := h.next
    exact ⟨congrArg Answer.token htoken, hp'⟩

theorem performAll (h : p.StandsAt s k) (calls : List Call) :
    (p.performAll calls).1 = Call.answers s k calls ∧
      (p.performAll calls).2.StandsAt s (k + calls.count .next) := by
  induction calls generalizing p k with
  | nil => exact ⟨rfl, h⟩
  | cons call calls ih =>
    obtain ⟨hanswer, hp'⟩ := h.perform call
    obtain ⟨hanswers, hp''⟩ := ih hp'
    refine ⟨List.cons_eq_cons.mpr ⟨hanswer, hanswers⟩, ?_⟩
    have hcount : k + (call :: calls).count .next = call.taken k + calls.count .next := by
      rw [List.count_cons]
      cases call with
      | peek n => rfl
      | next =>
        show k + (calls.count .next + 1) = k + 1 + calls.count .next
        omega
    rw [hcount]
    exact hp''

/-- A parse from here is a parse of what the stream goes on with. -/
theorem finish (h : p.StandsAt s k) (limit : Nat) :
    (p.finish limit).result = (ParseM.program limit ⟨s.drop k, []⟩).1 := by
  have hfollows := ParseM.Follows.program sameTokens_stream limit p
  have hmap : p.map Window.stream = ⟨s.drop k, []⟩ := by
    rw [Parser.map, h.stream, h.active]
  rw [hmap] at hfollows
  exact (congrArg Prod.fst hfollows).symm

end StandsAt
end Parser

/-- What repeated scanning of a source hands out is its tokens and then the last one for ever. Every
call on a parser of the source is answered from there, at the position that the tokens taken before
it have led to, and looking too far ahead has no effect. A parse after any calls is a parse of what
the tokens taken have left, whatever was looked at. -/
theorem performAll_start (source : String) (calls : List Parser.Call) :
    (∃ ts last, tokens source = ts ++ [last] ∧ stream source = ts ++ₛ Stream'.const last) ∧
      ((Parser.start source).performAll calls).1 = Parser.Call.answers (stream source) 0 calls ∧
      ∀ limit, (((Parser.start source).performAll calls).2.finish limit).result =
        (ParseM.program limit ⟨(stream source).drop (calls.count .next), []⟩).1 := by
  obtain ⟨ts, last, htokens, hs⟩ := exists_tokens_eq source
  obtain ⟨hanswers, hp⟩ := (Parser.StandsAt.start source).performAll calls
  rw [Nat.zero_add] at hp
  exact ⟨⟨ts, last, htokens, hs.eq_append⟩, hanswers, hp.finish⟩

end PredicateLang
