import PredicateLang.Expr
import PredicateLang.Value.Entries

/-!
# Values

Expressions yield nil, booleans, doubles, strings and, for remainders, integers.
Maps, host objects and the other integers come from the context. Maps and host
objects have an identity: each is equal to itself only, whatever it holds.
-/

namespace PredicateLang

/-- Tells maps apart. A map that is part of a larger document shares the origin of the
document and is found there by its path, innermost key first. -/
structure Identity where
  origin : Nat
  path : List String
  deriving Repr, DecidableEq

/-- The identity of the map under a key of the map with this identity. -/
def Identity.child (id : Identity) (key : String) : Identity :=
  { id with path := key :: id.path }

/-- Refers to an object of the host. The type name is the object's own and is kept at hand for
printing. -/
structure HostRef where
  id : Nat
  typeName : String
  deriving Repr, DecidableEq

inductive Value where
  | nil
  | boolean (b : Bool)
  | integer (n : Int64)
  | unsigned (n : UInt64)
  | number (x : Float)
  | string (s : String)
  | map (identity : Identity) (entries : List (String × Value))
  | host (ref : HostRef)

namespace Value

/-- The name of a value's kind, or of a host object's type. -/
def typeName : Value → String
  | .nil => "nil"
  | .boolean _ => "bool"
  | .integer _ => "int"
  | .unsigned _ => "uint"
  | .number _ => "float"
  | .string _ => "string"
  | .map _ _ => "map"
  | .host ref => ref.typeName

/-- Equality of values. It never converts: values of two kinds differ, doubles compare as
numbers, maps and host objects by identity. -/
def same : Value → Value → Bool
  | .nil, .nil => true
  | .boolean a, .boolean b => a == b
  | .integer a, .integer b => a == b
  | .unsigned a, .unsigned b => a == b
  | .number a, .number b => a == b
  | .string a, .string b => a == b
  | .map a _, .map b _ => a == b
  | .host a, .host b => a.id == b.id
  | _, _ => false

instance : BEq Value := ⟨same⟩

/-- A 32-bit float is a number like any other. -/
def ofFloat32 (x : Float32) : Value :=
  .number x.toFloat

/-- A value that may be missing. -/
def ofOption : Option Value → Value :=
  (Option.getD · .nil)

end Value

/-- The value that a literal stands for. -/
def Literal.value : Literal → Value
  | .number x => .number x
  | .string s => .string s
  | .boolean b => .boolean b
  | .nil => .nil

end PredicateLang
