import PredicateLang.Expr
import PredicateLang.Token

/-!
# Grammar rules

An expression is built from five levels of binary operators, the loosest first.
Every level is right-recursive: an operand of the next tighter level, and maybe
an operator of the level and the level again. Below the tightest level stand
member access and the primary expressions.
-/

namespace PredicateLang

/-- The levels of binary operators, from the loosest to the tightest. -/
inductive Level where
  | or | and | relation | sum | product
  deriving Repr, DecidableEq

inductive Rule where
  | expression
  | level (l : Level)
  | deref
  | primary
  deriving Repr, DecidableEq

namespace Level

def name : Level → String
  | .or => "logical_or"
  | .and => "logical_and"
  | .relation => "relational"
  | .sum => "additive"
  | .product => "multiplicative"

/-- The rule for the operands of a level. -/
def operand : Level → Rule
  | .or => .level .and
  | .and => .level .relation
  | .relation => .level .sum
  | .sum => .level .product
  | .product => .deref

/-- The operator that a token stands for on a level. -/
def operator? : Level → TokenKind → Option BinaryOp
  | .or, .symbol .or => some .or
  | .and, .symbol .and => some .and
  | .relation, .symbol .equal => some (.relation .equal)
  | .relation, .symbol .notEqual => some (.relation .notEqual)
  | .relation, .symbol .less => some (.relation .less)
  | .relation, .symbol .lessOrEqual => some (.relation .lessOrEqual)
  | .relation, .symbol .greater => some (.relation .greater)
  | .relation, .symbol .greaterOrEqual => some (.relation .greaterOrEqual)
  | .sum, .symbol .plus => some (.arithmetic .plus)
  | .sum, .symbol .minus => some (.arithmetic .minus)
  | .product, .symbol .star => some (.arithmetic .times)
  | .product, .symbol .slash => some (.arithmetic .divide)
  | .product, .symbol .percent => some (.arithmetic .remainder)
  | _, _ => none

end Level

/-- The name of a rule in messages. -/
def Rule.name : Rule → String
  | .expression => "expression"
  | .level l => l.name
  | .deref => "deref"
  | .primary => "primary"

/-- What a token contributes as a whole primary expression. -/
def TokenKind.primary? : TokenKind → Option Expr
  | .number x => some (.literal (.number x))
  | .string s => some (.literal (.string s))
  | .uuid s => some (.literal (.string s))
  | .boolean b => some (.literal (.boolean b))
  | .nil => some (.literal .nil)
  | .identifier name => some (.identifier name)
  | .endOfInput | .malformed _ | .symbol _ => none

end PredicateLang
