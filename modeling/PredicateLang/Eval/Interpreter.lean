import PredicateLang.Eval.Frames
import PredicateLang.Eval.Operation
import PredicateLang.Host.Resolve

/-!
# Evaluation

An interpreter walks an expression against its frames. A member access pushes
the value of its base, evaluates its path there, and pops it again, whether or
not the path has a value. What happens on the way is recorded in a trace.
-/

namespace PredicateLang

/-- One of the two operands of a node. -/
inductive Side where
  | left
  | right
  deriving Repr, DecidableEq

/-- The place of a node in a tree: the operands that lead to it from the root, the last one
first. -/
abbrev Address := List Side

/-- What an evaluation did. -/
inductive Event where
  /-- The evaluation of a node started. -/
  | entered (address : Address) (frames : Frames) (expr : Expr)
  /-- A name was resolved against the current frame. -/
  | resolved (name : String)
  /-- The root frame was to be removed. -/
  | underflow

structure Interpreter (σ : Type) where
  frames : Frames
  /-- The state of the host. -/
  state : σ
  /-- The latest event first. -/
  trace : List Event

/-- A step of an evaluation. It yields a value or fails, and keeps its state either way. -/
abbrev EvalM (σ : Type) := ExceptT EvalError (StateM (Interpreter σ))

namespace Interpreter

variable {σ : Type}

/-- An interpreter over a context. -/
def start (context : Value) (state : σ) : Interpreter σ :=
  ⟨.start context, state, []⟩

/-- Adds an event to the trace. -/
def record (event : Event) (m : Interpreter σ) : Interpreter σ :=
  { m with trace := event :: m.trace }

/-- Removes the current frame. -/
def leave (m : Interpreter σ) : Interpreter σ :=
  match m.frames.pop? with
  | some frames => { m with frames }
  | none => m.record .underflow

/-- The frames in one line. -/
def text (m : Interpreter σ) : String :=
  "Interpreter \x7b frames: " ++ m.frames.text ++ " \x7d"

end Interpreter

namespace EvalM

variable {σ α β : Type}

/-- The first failure ends a sequence of steps. -/
theorem bind_apply (x : EvalM σ α) (f : α → EvalM σ β) (m : Interpreter σ) :
    (x >>= f) m =
      match x m with
      | (.ok a, m) => f a m
      | (.error e, m) => (.error e, m) := by
  change ExceptT.bind x f m = _
  simp only [ExceptT.bind, ExceptT.mk, bind, StateT.bind, ExceptT.bindCont]
  rcases x m with ⟨_ | _, _⟩ <;> rfl

/-- Records that the evaluation of a node starts. -/
def enter (address : Address) (expr : Expr) : EvalM σ Unit := fun m =>
  (.ok (), m.record (.entered address m.frames expr))

/-- A result that needs neither frames nor host. -/
def lift (result : Except EvalError α) : EvalM σ α := fun m =>
  (result, m)

/-- Resolves a name against the current frame. -/
def ask (world : World σ) (name : String) : EvalM σ Value := fun m =>
  let r := resolve world m.frames.current name m.state
  (r.1, { m.record (.resolved name) with state := r.2 })

/-- Runs a step with `base` as the current frame. -/
def inFrame (base : Value) (step : EvalM σ α) : EvalM σ α := fun m =>
  let r := step { m with frames := m.frames.push base }
  (r.1, r.2.leave)

/-- The result of an operator whose operands are still to be evaluated. The logical operators
convert the left operand and may not need the right one; arithmetic converts the left operand
before the right one is evaluated; relations evaluate both first. -/
def combine : BinaryOp → EvalM σ Value → EvalM σ Value → EvalM σ Value
  | .or, left, right => do
    if ← lift (← left).toTruth then pure (.boolean true)
    else return .boolean (← lift (← right).toTruth)
  | .and, left, right => do
    if ← lift (← left).toTruth then return .boolean (← lift (← right).toTruth)
    else pure (.boolean false)
  | .relation r, left, right => do
    let a ← left
    let b ← right
    lift (r.apply a b)
  | .arithmetic op, left, right => do
    let x ← lift (← left).toNumber
    let y ← lift (← right).toNumber
    lift (op.apply x y)

end EvalM

/-- Evaluates the node at `address`. -/
def evaluateAt {σ : Type} (world : World σ) (expr : Expr) (address : Address) : EvalM σ Value := do
  EvalM.enter address expr
  match expr with
  | .literal l => pure l.value
  | .identifier name => EvalM.ask world name
  | .member base path => do
    let v ← evaluateAt world base (.left :: address)
    EvalM.inFrame v (evaluateAt world path (.right :: address))
  | .binary op left right =>
    EvalM.combine op (evaluateAt world left (.left :: address))
      (evaluateAt world right (.right :: address))

namespace Interpreter

variable {σ : Type}

/-- Evaluates a whole expression. The trace starts anew. -/
def evaluate (world : World σ) (expr : Expr) (m : Interpreter σ) :
    Except EvalError Value × Interpreter σ :=
  evaluateAt world expr [] { m with trace := [] }

end Interpreter
end PredicateLang
