import PredicateLang.Eval.EvalError
import PredicateLang.Number.Binary64

/-!
# Coercions and operations

Operators convert their operands. A truth value is a boolean or an integer that
is not zero; a number is an integer of either kind or a double. Nothing else
converts. Arithmetic is on doubles, except the remainder, which is taken on the
operands truncated to integers and is an integer.
-/

namespace PredicateLang

namespace Value

/-- Booleans, and integers as "not zero". -/
def toTruth : Value → Except EvalError Bool
  | .boolean b => .ok b
  | .integer n => .ok (n != 0)
  | .unsigned n => .ok (n != 0)
  | v => .error (.notBoolean v)

/-- Integers and doubles, as the nearest double. -/
def toNumber : Value → Except EvalError Float
  | .integer n => .ok n.toFloat
  | .unsigned n => .ok n.toFloat
  | .number x => .ok x
  | v => .error (.notNumeric v)

end Value

namespace Relation

/-- An ordering as a test on doubles. The two equalities are no orderings. -/
def test? : Relation → Option (Float → Float → Bool)
  | .equal | .notEqual => none
  | .less => some fun x y => decide (x < y)
  | .lessOrEqual => some fun x y => decide (x ≤ y)
  | .greater => some fun x y => decide (y < x)
  | .greaterOrEqual => some fun x y => decide (y ≤ x)

/-- Compares two values. An ordering converts both, the left one first. -/
def apply (r : Relation) (a b : Value) : Except EvalError Value :=
  match r.test? with
  | none => .ok (.boolean (if r = .equal then a.same b else !a.same b))
  | some test => do
    let x ← a.toNumber
    let y ← b.toNumber
    return .boolean (test x y)

end Relation

namespace Arithmetic

/-- The remainder of truncated division, which has the sign of `a`. There is none for a zero
divisor, nor where the quotient is not a 64-bit integer. -/
def truncatedRemainder (a b : Int) : Except EvalError Value :=
  if b = 0 ∨ (a = Number.minSigned ∧ b = -1) then .error (.invalidRemainder a b)
  else .ok (.integer (Int64.ofInt (a.tmod b)))

def apply (op : Arithmetic) (x y : Float) : Except EvalError Value :=
  match op with
  | .plus => .ok (.number (x + y))
  | .minus => .ok (.number (x - y))
  | .times => .ok (.number (x * y))
  | .divide => .ok (.number (x / y))
  | .remainder => truncatedRemainder (Number.truncate x) (Number.truncate y)

end Arithmetic
end PredicateLang
