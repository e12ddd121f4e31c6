import PredicateLang.Program

/-!
# Log records

What the scanner, the parser and the interpreter report while they work. Each
token is reported when it is read off the source, each program when it is
compiled, each node when its evaluation starts, and each run that fails.
-/

namespace PredicateLang.Log

inductive Severity where
  | debug
  | trace
  deriving Repr, DecidableEq

def Severity.name : Severity → String
  | .debug => "DEBUG"
  | .trace => "TRACE"

structure Record where
  severity : Severity
  target : String
  message : String

/-- A token was read. -/
def scanned (source : String) (t : Token) : Record :=
  ⟨.trace, "epl::tokenizer", "scanned " ++ t.kind.text ++ " at " ++ t.span.location source⟩

/-- A program was compiled. -/
def compiled (p : Program) : Record :=
  ⟨.debug, "epl::parser", "compiled " ++ p.text⟩

/-- The evaluation of a node started. -/
def entered (frames : Frames) (expr : Expr) : Record :=
  ⟨.trace, "epl::interpreter", frames.text ++ " <- " ++ expr.text⟩

/-- A run failed. -/
def failed (p : Program) (e : EvalError) : Record :=
  ⟨.debug, "epl::interpreter", "evaluating " ++ p.text ++ " failed: " ++ e.message⟩

/-- The records of a parse of `source`. -/
def ofParsing (source : String) (parsing : Parsing) : List Record :=
  parsing.scanned.map (scanned source)
    ++ (parsing.result.toOption.map compiled).toList

/-- The records of the nodes that were evaluated. -/
def ofTrace (trace : List Event) : List Record :=
  trace.filterMap fun
    | .entered _ frames expr => some (entered frames expr)
    | _ => none

/-- The record of a run that failed. -/
def ofResult (p : Program) : Except EvalError Value → List Record
  | .ok _ => []
  | .error e => [failed p e]

end PredicateLang.Log
