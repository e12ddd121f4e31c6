import PredicateLang.Host
import PredicateLang.Value.Text

/-!
# Evaluation errors
-/

namespace PredicateLang

/-- Why a list of values is not what a method may return. -/
inductive ReturnFault where
  /-- The second of two values is not nil. -/
  | notAnError (second : Value)
  /-- There are neither one nor two values. -/
  | count (n : Nat)

def ReturnFault.message : ReturnFault → String
  | .notAnError second =>
    "second return value must be an error, got " ++ second.text ++ " (" ++ second.typeName ++ ")"
  | .count n => s!"expected 1 or 2 return values, got {n}"

inductive EvalError where
  | notBoolean (value : Value)
  | notNumeric (value : Value)
  /-- `base` is the type name of the value that has no such member. -/
  | noSuchMember (name base : String)
  | malformedAccessor (name : String) (fault : ReturnFault)
  | host (name : String) (cause : HostError)
  | invalidRemainder (a b : Int)

def EvalError.message : EvalError → String
  | .notBoolean v => "Cannot cast " ++ v.text ++ " (" ++ v.typeName ++ ") to bool"
  | .notNumeric v => "Cannot cast " ++ v.text ++ " (" ++ v.typeName ++ ") to numeric"
  | .noSuchMember name base => "No such member: " ++ name ++ " on " ++ base
  | .malformedAccessor name fault => "Malformed accessor " ++ name ++ ": " ++ fault.message
  | .host name cause => "Could not resolve " ++ name ++ ": " ++ cause.message
  | .invalidRemainder a b => s!"Invalid integer remainder: {a} % {b}"

end PredicateLang
