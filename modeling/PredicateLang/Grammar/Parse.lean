import PredicateLang.Grammar.ParseError
import PredicateLang.Grammar.Window

/-!
# Parsing

One function parses every rule. It recurses on the number of rules that may
still become active, so it ends for every source of tokens, and an expression
that is nested too deeply is an error like any other. The list of active rules
is state: a rule enters it when it starts and leaves it when it returns, with an
expression or with an error.
-/

namespace PredicateLang

/-- A source of tokens and the rules that are being parsed, innermost first. -/
structure Parser (σ : Type) where
  tokens : σ
  active : List Rule

/-- A step of the parser. It yields a value or fails, and keeps its state either way. -/
abbrev ParseM (σ : Type) := ExceptT ParseError (StateM (Parser σ))

namespace ParseM

variable {σ α β : Type}

/-- The first failure ends a sequence of steps. -/
theorem bind_apply (x : ParseM σ α) (f : α → ParseM σ β) (p : Parser σ) :
    (x >>= f) p =
      match x p with
      | (.ok a, p) => f a p
      | (.error e, p) => (.error e, p) := by
  change ExceptT.bind x f p = _
  simp only [ExceptT.bind, ExceptT.mk, bind, StateT.bind, ExceptT.bindCont]
  rcases x p with ⟨_ | _, _⟩ <;> rfl

/-- Fails at a token, with the rules active now. -/
def fail (fault : ParseFault) (token : Token) : ParseM σ α :=
  fun p => (.error ⟨fault, p.active.reverse, token⟩, p)

/-- Runs a step while a rule is active. -/
def within (rule : Rule) (step : ParseM σ α) : ParseM σ α := fun p =>
  let r := step { p with active := rule :: p.active }
  (r.1, { r.2 with active := r.2.active.tail })

variable [TokenSource σ]

/-- The upcoming token. -/
def peek (role : Role) : ParseM σ Token := fun ⟨tokens, active⟩ =>
  let r := TokenSource.peek role active tokens
  (.ok r.1, ⟨r.2, active⟩)

/-- Takes the upcoming token. -/
def next (role : Role) : ParseM σ Token := fun ⟨tokens, active⟩ =>
  let r := TokenSource.next role active tokens
  (.ok r.1, ⟨r.2, active⟩)

/-- Fails if the upcoming token is malformed. -/
def checkLexical : ParseM σ Unit := do
  let token ← peek .operator
  match token.kind with
  | .malformed e => fail (.lexical e) token
  | _ => pure ()

/-- Takes a symbol that has to come next. -/
def expect (wanted : Symbol) : ParseM σ Unit := do
  let token ← next .operator
  match token.kind with
  | .symbol s => if s = wanted then pure () else fail (.expected wanted) token
  | kind => fail (kind.misplaced (.expected wanted)) token

/-- Parses a rule with `limit` as the greatest number of active rules, `budget` of which are
left. -/
def rule (limit : Nat) : Nat → Rule → ParseM σ Expr
  | 0, _ => do fail (.tooDeep limit) (← peek .operand)
  | budget + 1, r => within r <| match r with
    | .expression => rule limit budget (.level .or)
    | .level l => do
      let left ← rule limit budget l.operand
      match l.operator? (← peek .operator).kind with
      | none => do
        checkLexical
        pure left
      | some op => do
        let _ ← next .operator
        let right ← rule limit budget (.level l)
        pure (.binary op left right)
    | .deref => do
      let base ← rule limit budget .primary
      match (← peek .operator).kind with
      | .symbol .dot => do
        let _ ← next .operator
        let first ← peek .operand
        let path ← rule limit budget .deref
        if path.isMember then pure (.member base path) else fail .expectedIdentifier first
      | _ => do
        checkLexical
        pure base
    | .primary => do
      let token ← next .operand
      match token.kind with
      | .symbol .leftParen => do
        let inner ← rule limit budget .expression
        expect .rightParen
        pure inner
      | .endOfInput => fail .unexpectedEnd token
      | kind => match kind.primary? with
        | some e => pure e
        | none => fail (kind.misplaced (.unexpected kind)) token

/-- Parses one expression that takes up all tokens. -/
def program (limit : Nat) : ParseM σ Program := do
  let root ← rule limit limit .expression
  let token ← next .operator
  match token.kind with
  | .endOfInput => pure ⟨root⟩
  | kind => fail (kind.misplaced (.unexpected kind)) token

end ParseM

/-- How many rules may be active when nothing else is asked for. -/
def defaultDepth : Nat := 512

/-- The outcome of a parse, and the tokens that it read off the source, the first one first. -/
structure Parsing where
  result : Except ParseError Program
  scanned : List Token

namespace Parser

/-- A parser at the start of a source. -/
def start (source : String) : Parser Window :=
  ⟨.start source, []⟩

/-- The `n`th upcoming token. A parser that cannot look so far ahead goes on unchanged. -/
def peek (n : Nat) (p : Parser Window) : Except Window.Overrun (Token × Parser Window) :=
  (p.tokens.peek n).map fun r => (r.1, { p with tokens := r.2 })

/-- Takes the next token. -/
def next (p : Parser Window) : Token × Parser Window :=
  let r := p.tokens.next
  (r.1, { p with tokens := r.2 })

/-- Parses what has not been taken. -/
def finish (limit : Nat) (p : Parser Window) : Parsing :=
  let r := ParseM.program limit p
  ⟨r.1, r.2.tokens.scanned.reverse⟩

end Parser

/-- Parses a whole source with a limit on the active rules. -/
def parseWith (limit : Nat) (source : String) : Parsing :=
  (Parser.start source).finish limit

/-- Parses a whole source. -/
def parse (source : String) : Parsing :=
  parseWith defaultDepth source

end PredicateLang
