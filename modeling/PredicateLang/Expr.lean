import PredicateLang.Number.Text
import PredicateLang.Text.Quoted

/-!
# Expressions

The tree of a predicate. Parentheses leave no node. The path of a member access
is a tree of its own, which the grammar restricts to names and further accesses;
the tree type does not.
-/

namespace PredicateLang

inductive Literal where
  | number (x : Float)
  | string (s : String)
  | boolean (b : Bool)
  | nil
  deriving BEq

/-- Comparisons. The first two compare values, the others compare numbers. -/
inductive Relation where
  | equal | notEqual | less | lessOrEqual | greater | greaterOrEqual
  deriving Repr, DecidableEq

inductive Arithmetic where
  | plus | minus | times | divide | remainder
  deriving Repr, DecidableEq

inductive BinaryOp where
  | or
  | and
  | relation (r : Relation)
  | arithmetic (a : Arithmetic)
  deriving Repr, DecidableEq

inductive Expr where
  | literal (l : Literal)
  | identifier (name : String)
  /-- The value of `path` where the value of `base` is the context. -/
  | member (base path : Expr)
  | binary (op : BinaryOp) (left right : Expr)
  deriving BEq

def Literal.text : Literal → String
  | .number x => Number.plain x
  | .string s => Text.quoted s
  | .boolean b => toString b
  | .nil => "nil"

def Relation.text : Relation → String
  | .equal => "=="
  | .notEqual => "!="
  | .less => "<"
  | .lessOrEqual => "<="
  | .greater => ">"
  | .greaterOrEqual => ">="

def Arithmetic.text : Arithmetic → String
  | .plus => "+"
  | .minus => "-"
  | .times => "*"
  | .divide => "/"
  | .remainder => "%"

def BinaryOp.text : BinaryOp → String
  | .or => "||"
  | .and => "&&"
  | .relation r => r.text
  | .arithmetic a => a.text

namespace Expr

/-- Operators stand before their operands, in parentheses; a member access is written with a
dot. -/
def text : Expr → String
  | .literal l => l.text
  | .identifier name => name
  | .member base path => base.text ++ "." ++ path.text
  | .binary op left right => "(" ++ op.text ++ " " ++ left.text ++ " " ++ right.text ++ ")"

/-- Whether the tree may stand right of a dot. -/
def isMember : Expr → Bool
  | .identifier _ | .member _ _ => true
  | .literal _ | .binary _ _ _ => false

end Expr

/-- A compiled expression. -/
structure Program where
  root : Expr
  deriving BEq

def Program.text (p : Program) : String := p.root.text

end PredicateLang
