import PredicateLang.Value

/-!
# Host objects

The program that embeds the language supplies objects. An object has up to four
capabilities: it looks up variables, it has keyed entries, it has methods
without arguments, and it has fields. Asking may change the state `σ` of the
host, so every answer is a step on that state.
-/

namespace PredicateLang

/-- Why host code could not answer. -/
structure HostError where
  message : String
  deriving Repr, DecidableEq

/-- What a method handed back. -/
inductive Returned where
  | single (value : Value)
  /-- A value and maybe a failure that makes it void. -/
  | pair (value : Value) (failure : Option HostError)
  /-- A list of values, of which one, or one and nil, is acceptable. -/
  | many (values : List Value)

/-- The result of a method that may fail. -/
def Returned.ofExcept : Except HostError Value → Returned
  | .ok value => .pair value none
  | .error e => .pair .nil (some e)

/-- An object as the language sees it. -/
structure Host (σ : Type) where
  typeName : String
  /-- The lookup of variables, if the object has one. -/
  scope : StateM σ (Option (String → StateM σ (Except HostError Value)))
  /-- The entries, if the object has them. -/
  entries : StateM σ (Option (Entries Value))
  /-- Calls the method of that name, if there is one. -/
  method : String → StateM σ (Option Returned)
  /-- Reads the field of that name, if there is one. -/
  field : String → StateM σ (Option Value)

/-- The object behind each reference. -/
abbrev World (σ : Type) := HostRef → Host σ

/-- What may stand between a reference and its object. -/
inductive Indirection where
  | shared
  | boxed
  deriving Repr, DecidableEq

namespace Host

variable {σ : Type}

/-- An object without any capability. -/
def bare (typeName : String) : Host σ where
  typeName
  scope := pure none
  entries := pure none
  method _ := pure none
  field _ := pure none

/-- A lookup of variables and nothing else. -/
def resolver (lookup : String → StateM σ (Except HostError Value)) : Host σ :=
  { bare "resolver" with scope := pure (some lookup) }

/-- An object seen through an indirection, which forwards every question. -/
def behind (_ : Indirection) (host : Host σ) : Host σ where
  typeName := host.typeName
  scope := host.scope
  entries := host.entries
  method name := host.method name
  field name := host.field name

end Host

/-- An object that is put together from fields and methods. -/
structure Record (σ : Type) where
  typeName : String
  fields : Entries Value
  methods : Entries (StateM σ Returned)

namespace Record

variable {σ : Type}

def empty (typeName : String) : Record σ :=
  ⟨typeName, [], []⟩

/-- The record with a field, in place of one of the same name. -/
def withField (name : String) (value : Value) (r : Record σ) : Record σ :=
  { r with fields := r.fields ++ [(name, value)] }

/-- The record with a method, in place of one of the same name. -/
def withMethod (name : String) (method : StateM σ Returned) (r : Record σ) : Record σ :=
  { r with methods := r.methods ++ [(name, method)] }

def host (r : Record σ) : Host σ :=
  { Host.bare r.typeName with
    method := fun name => match r.methods.get? name with
      | some method => some <$> method
      | none => pure none
    field := fun name => pure (r.fields.get? name) }

end Record
end PredicateLang
