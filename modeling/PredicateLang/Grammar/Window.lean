import PredicateLang.Grammar.Rule
import PredicateLang.Token.Scanner

/-!
# Looking ahead

The grammar reads tokens one by one and looks at the upcoming one before it
decides. A window keeps the few tokens that were looked at and not yet taken.
What it hands out is what the scanner hands out, in the same order.
-/

namespace PredicateLang

/-- The part that the grammar wants a token to play. -/
inductive Role where
  /-- The token starts an operand. -/
  | operand
  /-- The token follows an operand: an operator, a closing parenthesis, or the end. -/
  | operator
  deriving Repr, DecidableEq

/-- Something that hands out tokens. It is told what the grammar wants of the token, and which
rules are active, innermost first; these are remarks that a source may keep or ignore. -/
class TokenSource (σ : Type) where
  /-- The upcoming token, which stays upcoming. -/
  peek : Role → List Rule → σ → Token × σ
  /-- The upcoming token, which is thereby taken. -/
  next : Role → List Rule → σ → Token × σ

/-- A scanner and the tokens that it handed out and that nobody has taken. -/
structure Window where
  scanner : Scanner
  ahead : List Token
  /-- Every token read off the source so far, the latest first. -/
  scanned : List Token

namespace Window

/-- How many tokens can be looked at. -/
def capacity : Nat := 2

/-- Looking ahead further than the window reaches. -/
structure Overrun where
  wanted : Nat

def Overrun.message (o : Overrun) : String :=
  s!"Look-ahead overrun: {o.wanted} >= {capacity}"

/-- The window before the first token of a source. -/
def start (source : String) : Window :=
  ⟨.start source, [], []⟩

/-- A token straight from the scanner. -/
def scan (w : Window) : Token × Window :=
  let r := w.scanner.scan
  let scanned := if w.scanner.failed.isSome then w.scanned else r.1 :: w.scanned
  (r.1, { w with scanner := r.2, scanned })

/-- The window with one more token ahead. -/
def fetch (w : Window) : Window :=
  let r := w.scan
  { r.2 with ahead := r.2.ahead ++ [r.1] }

/-- The window with `n` more tokens ahead. -/
def fill : Nat → Window → Window
  | 0, w => w
  | n + 1, w => fill n w.fetch

theorem length_ahead_fetch (w : Window) : w.fetch.ahead.length = w.ahead.length + 1 := by
  simp [fetch, scan]

theorem length_ahead_fill (n : Nat) (w : Window) :
    (w.fill n).ahead.length = w.ahead.length + n := by
  induction n generalizing w with
  | zero => rfl
  | succ n ih => rw [fill, ih, length_ahead_fetch]; omega

/-- The window with more than `n` tokens ahead. -/
def reach (n : Nat) (w : Window) : Window :=
  w.fill (n + 1 - w.ahead.length)

theorem lt_length_ahead_reach (n : Nat) (w : Window) : n < (w.reach n).ahead.length := by
  rw [reach, length_ahead_fill]
  omega

/-- The `n`th upcoming token. -/
def upcoming (n : Nat) (w : Window) : Token × Window :=
  ((w.reach n).ahead.get ⟨n, lt_length_ahead_reach n w⟩, w.reach n)

/-- The `n`th upcoming token, if the window reaches that far. -/
def peek (n : Nat) (w : Window) : Except Overrun (Token × Window) :=
  if n < capacity then .ok (w.upcoming n) else .error ⟨n + 1⟩

/-- Takes the next token. -/
def next (w : Window) : Token × Window :=
  match w.ahead with
  | token :: ahead => (token, { w with ahead })
  | [] => w.scan

instance : TokenSource Window where
  peek _ _ w := w.upcoming 0
  next _ _ w := w.next

end Window
end PredicateLang
