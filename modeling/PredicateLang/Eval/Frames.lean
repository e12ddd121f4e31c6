import PredicateLang.Value

/-!
# Frames

The values that names are resolved against: the context at the root, and the
bases of the member accesses being evaluated. The innermost frame is current.
The root frame cannot be removed.
-/

namespace PredicateLang

/-- A root frame and the frames above it, innermost first. -/
structure Frames where
  root : Value
  inner : List Value

namespace Frames

/-- The frames of an evaluation that has not entered any member access. -/
def start (root : Value) : Frames :=
  ⟨root, []⟩

/-- The innermost frame. -/
def current (f : Frames) : Value :=
  f.inner.head?.getD f.root

/-- The number of frames, the root included. -/
def depth (f : Frames) : Nat :=
  f.inner.length + 1

def push (base : Value) (f : Frames) : Frames :=
  { f with inner := base :: f.inner }

/-- The frames below the current one. There are none below the root. -/
def pop? (f : Frames) : Option Frames :=
  match f.inner with
  | [] => none
  | _ :: inner => some { f with inner }

@[simp] theorem current_push (base : Value) (f : Frames) : (f.push base).current = base := rfl

@[simp] theorem pop?_push (base : Value) (f : Frames) : (f.push base).pop? = some f := rfl

/-- All frames, the root first. -/
def toList (f : Frames) : List Value :=
  f.root :: f.inner.reverse

@[simp] theorem toList_push (base : Value) (f : Frames) :
    (f.push base).toList = f.toList ++ [base] := by
  simp [push, toList]

theorem current_mem_toList (f : Frames) : f.current ∈ f.toList := by
  obtain ⟨root, inner⟩ := f
  cases inner <;> simp [current, toList]

theorem mem_toList_push {base v : Value} {f : Frames} :
    v ∈ (f.push base).toList ↔ v = base ∨ v ∈ f.toList := by
  simp [push, toList, or_comm, or_left_comm]

/-- The type names of the frames as a list, the root first. -/
def text (f : Frames) : String :=
  "[" ++ String.intercalate ", " (f.toList.map fun v => Text.quoted v.typeName) ++ "]"

end Frames
end PredicateLang
