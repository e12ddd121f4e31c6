import PredicateLang.CommandLine.Context
import PredicateLang.CommandLine.Listing

/-!
# Running commands

A command is a function from the files and the standard input to an exit code,
the standard output, and what is reported on the side. A session reads line
after line into one buffer and evaluates them against the same context.
-/

namespace PredicateLang.CommandLine

/-- What a command leaves behind. -/
structure Outcome where
  code : Nat
  output : String
  log : List Log.Record
  error : Option String

/-- The least verbosity at which a record is shown. -/
def shownFrom : Log.Severity → Nat
  | .debug => 1
  | .trace => 2

/-- A message whose lines after the first one are indented. -/
def indented (message : String) : List Char :=
  message.toList.flatMap fun c => if c = '\n' then "\n    ".toList else [c]

/-- A record as one or more lines. -/
def logLine (r : Log.Record) : String :=
  let heading := "[" ++ padRight 5 r.severity.name ++ " " ++ r.target ++ "] "
  String.ofList (Text.visible (heading.toList ++ indented r.message ++ ['\n']))

/-- The lines of the records that are shown. -/
def logText (verbosity : Nat) (log : List Log.Record) : String :=
  String.join ((log.filter fun r => shownFrom r.severity ≤ verbosity).map logLine)

/-- The line of an error. -/
def errorLine (message : String) : String :=
  "Error: " ++ message ++ "\n"

namespace Outcome

/-- The standard error of a command: the log, and the error that ended it. -/
def errors (verbosity : Nat) (o : Outcome) : String :=
  logText verbosity o.log ++ o.error.elim "" errorLine

/-- A command that could not start. -/
def fault (f : ContextFault) : Outcome :=
  ⟨1, "", [], some f.message⟩

end Outcome

namespace Repl

def banner : String := "EOF to exit. (Ctrl+D on *nix, Ctrl+Z on Windows)\n"

def prompt : String := "> "

/-- The text up to the first line feed, which belongs to it, and the text after it. -/
def readLine : List Char → List Char × List Char
  | [] => ([], [])
  | c :: cs =>
    if c = '\n' then ([c], cs)
    else
      let (line, rest) := readLine cs
      (c :: line, rest)

theorem length_readLine (text : List Char) :
    (readLine text).1.length + (readLine text).2.length = text.length := by
  induction text with
  | nil => rfl
  | cons c cs ih =>
    by_cases hc : c = '\n'
    · simp only [readLine, if_pos hc, List.length_cons, List.length_nil]
      omega
    · simp only [readLine, if_neg hc, List.length_cons]
      omega

/-- What a session has read and not answered yet, and what it has printed and reported. -/
structure Session where
  buffer : List Char
  output : String
  log : List Log.Record

namespace Session

def start : Session := ⟨[], banner, []⟩

def print (text : String) (s : Session) : Session :=
  { s with output := s.output ++ text }

/-- Evaluates what is in the buffer, unless it is blank. -/
def answer (context : Value) (s : Session) : Session :=
  let source := String.ofList (Text.trim s.buffer)
  if source.isEmpty then s
  else
    let e := evaluateIn context source
    let text := match e.result with
      | .ok v => v.text ++ "\n"
      | .error fault => errorLine (fault.message source)
    { s.print text with log := s.log ++ evaluationLog source e }

/-- Takes a line into the buffer, answers it and clears the buffer. -/
def round (context : Value) (line : List Char) (s : Session) : Session :=
  let filled : Session := { s with buffer := s.buffer ++ line }
  { filled.answer context with buffer := [] }

/-- Asks for lines and answers them until the input ends. -/
def run (context : Value) (input : List Char) (s : Session) : Session :=
  if (readLine input).1 = [] then s.print prompt
  else ((s.print prompt).round context (readLine input).1).run context (readLine input).2
termination_by input.length
decreasing_by
  have hread := length_readLine input
  have hline := List.length_pos_iff.mpr ‹_›
  omega

end Session

end Repl

/-- Evaluates one expression and prints its value. -/
def runEval (members : List (String × Json)) (source : String) : Outcome :=
  let e := evaluateIn (contextValue members) source
  let log := contextLoaded members :: evaluationLog source e
  match e.result with
  | .ok v => ⟨0, v.text ++ "\n", log, none⟩
  | .error fault => ⟨1, "", log, some (fault.message source)⟩

/-- Lists the tokens of an expression. -/
def runTokens (source : String) : Outcome :=
  ⟨0, listing source, (tokens source).map (Log.scanned source), none⟩

/-- Answers the lines of the standard input. -/
def runRepl (members : List (String × Json)) (input : String) : Outcome :=
  let session := Repl.Session.start.run (contextValue members) input.toList
  ⟨0, session.output, contextLoaded members :: session.log, none⟩

/-- Runs a command. The context is put together before anything is evaluated. -/
def Command.run (files : Files) (input : String) : Command → Outcome
  | .tokens expression => runTokens expression
  | .eval expression options =>
    match options.members files with
    | .ok members => runEval members expression
    | .error fault => .fault fault
  | .repl options =>
    match options.members files with
    | .ok members => runRepl members input
    | .error fault => .fault fault

end PredicateLang.CommandLine
