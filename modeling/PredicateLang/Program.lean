import PredicateLang.Eval.Interpreter
import PredicateLang.Grammar.Parse

/-!
# Running programs

A program is compiled once and run against any number of contexts. Every run has
an interpreter of its own. `evaluate` compiles and runs a source text in one go.
-/

namespace PredicateLang

variable {σ : Type}

/-- The outcome of a run, the state it left the host in, and its events in order. -/
structure Execution (σ : Type) where
  result : Except EvalError Value
  state : σ
  trace : List Event

/-- What an interpreter yields for an expression, and the interpreter afterwards. -/
def Interpreter.run (world : World σ) (expr : Expr) (m : Interpreter σ) :
    Execution σ × Interpreter σ :=
  let r := m.evaluate world expr
  (⟨r.1, r.2.state, r.2.trace.reverse⟩, r.2)

/-- Runs a program against a context. -/
def Program.exec (world : World σ) (context : Value) (state : σ) (p : Program) : Execution σ :=
  ((Interpreter.start context state).run world p.root).1

/-- Everything that can go wrong with a source text. -/
inductive Error where
  | parse (e : ParseError)
  | eval (e : EvalError)

def Error.message (source : String) : Error → String
  | .parse e => e.message source
  | .eval e => e.message

/-- A parse of a source text, and the run of the program if there is one. -/
structure Evaluation (σ : Type) where
  parsing : Parsing
  execution : Except ParseError (Execution σ)

/-- Compiles and runs a source text. -/
def evaluate (world : World σ) (context : Value) (state : σ) (source : String) : Evaluation σ :=
  let parsing := parse source
  ⟨parsing, parsing.result.map fun p => p.exec world context state⟩

def Evaluation.result (e : Evaluation σ) : Except Error Value :=
  match e.execution with
  | .error fault => .error (.parse fault)
  | .ok run => run.result.mapError .eval

end PredicateLang
