import PredicateLang.Eval.EvalError

/-!
# Resolving names

A name is resolved against a base value. A map answers with the entry or nil. A
host object is asked for its capabilities in a fixed order, and the first one
that it has decides, even if it fails. Nothing else has members.
-/

namespace PredicateLang

namespace Returned

/-- The value that a method returned, if it returned properly. -/
def unpack (name : String) : Returned → Except EvalError Value
  | .single v => .ok v
  | .pair v none => .ok v
  | .pair _ (some e) => .error (.host name e)
  | .many [v] => .ok v
  | .many [v, .nil] => .ok v
  | .many [_, second] => .error (.malformedAccessor name (.notAnError second))
  | .many values => .error (.malformedAccessor name (.count values.length))

end Returned

variable {σ : Type}

namespace Host

/-- The field of that name, or the error that there is no such member. -/
def resolveField (host : Host σ) (name : String) : StateM σ (Except EvalError Value) := do
  match ← host.field name with
  | some v => pure (.ok v)
  | none => pure (.error (.noSuchMember name host.typeName))

/-- Variables come first, then entries, methods and fields. -/
def resolve (host : Host σ) (name : String) : StateM σ (Except EvalError Value) := do
  match ← host.scope with
  | some lookup => return (← lookup name).mapError (.host name)
  | none =>
    match ← host.entries with
    | some entries => return .ok (Value.ofOption (Entries.get? name entries))
    | none =>
      match ← host.method name with
      | some returned => return returned.unpack name
      | none => host.resolveField name

end Host

/-- The value of a name where `base` is the context. -/
def resolve (world : World σ) (base : Value) (name : String) : StateM σ (Except EvalError Value) :=
  match base with
  | .map _ entries => pure (.ok (Value.ofOption (Entries.get? name entries)))
  | .host ref => (world ref).resolve name
  | _ => pure (.error (.noSuchMember name base.typeName))

end PredicateLang
