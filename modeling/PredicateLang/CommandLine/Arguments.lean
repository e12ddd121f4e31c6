import PredicateLang.Json.Document
import PredicateLang.Text.ControlSequence

/-!
# Command line arguments

A command is to evaluate an expression, to list its tokens, or to read
expressions line by line. The context is an optional file and assignments of
single entries. The `v` flags may stand anywhere; those after the command
replace those before it. Arguments after `--` are words even if they start with
a dash.
-/

namespace PredicateLang.CommandLine

/-- Where the context of a command comes from. -/
structure ContextOptions where
  file : Option String
  /-- Entries to set, in the order in which they were given. -/
  assignments : List (String × Json)

inductive Command where
  | eval (expression : String) (context : ContextOptions)
  | tokens (expression : String)
  | repl (context : ContextOptions)

/-- A command, and how much of the log is shown. -/
structure Invocation where
  verbosity : Nat
  command : Command

/-- Why an argument is no assignment. -/
inductive AssignmentFault where
  | noValue
  | noName
  deriving Repr, DecidableEq

/-- Options that take a value. -/
inductive Opt where
  | context
  | set
  deriving Repr, DecidableEq

def Opt.text : Opt → String
  | .context => "--context <CONTEXT>"
  | .set => "--set <NAME=VALUE>"

inductive UsageError where
  | invalidAssignment (argument : String) (fault : AssignmentFault)
  | unexpectedArgument (argument : String)
  | unknownCommand (name : String)
  | missingValue (option : Opt)
  | repeated (option : Opt)
  | missingExpression

def AssignmentFault.message (argument : String) : AssignmentFault → String
  | .noValue => "expected NAME=VALUE, got " ++ Text.quoted argument
  | .noName => "missing name in " ++ Text.quoted argument

/-- An argument as it is shown on a terminal. -/
def shown (argument : String) : String :=
  String.ofList (Text.visible argument.toList)

def UsageError.message : UsageError → String
  | .invalidAssignment argument fault =>
    "error: invalid value '" ++ shown argument ++ "' for '" ++ Opt.set.text ++ "': "
      ++ fault.message argument
  | .unexpectedArgument argument =>
    "error: unexpected argument '" ++ shown argument ++ "' found"
  | .unknownCommand name => "error: unrecognized subcommand '" ++ shown name ++ "'"
  | .missingValue option =>
    "error: a value is required for '" ++ option.text ++ "' but none was supplied"
  | .repeated option => "error: the argument '" ++ option.text ++ "' cannot be used multiple times"
  | .missingExpression =>
    "error: the following required arguments were not provided:\n  <EXPRESSION>"

/-- A name and the text assigned to it, parted at the first equals sign. The text is read as
JSON, or taken as a string if it is no document. -/
def readAssignment (argument : String) : Except AssignmentFault (String × Json) :=
  let name := argument.toList.takeWhile (· ≠ '=')
  match argument.toList.drop name.length with
  | [] => .error .noValue
  | _ :: text =>
    if name.isEmpty then .error .noName
    else
      let value := String.ofList text
      .ok (String.ofList name, (Json.parse? value).getD (.string value))

/-- What one argument is. -/
inductive Argument where
  | word (w : String)
  /-- All that follows are words. -/
  | terminator
  /-- Some `v` flags, and maybe an option with the value attached to it. -/
  | flags (count : Nat) (option : Option (Opt × Option String))
  | unknown

/-- The value attached to a one-letter option. An equals sign before it does not count. -/
def attached : List Char → Option String
  | [] => none
  | '=' :: value => some (String.ofList value)
  | value => some (String.ofList value)

/-- One-letter flags in a row, after `count` of them. -/
def readShort (count : Nat) : List Char → Argument
  | [] => .flags count none
  | 'v' :: cs => readShort (count + 1) cs
  | 'c' :: cs => .flags count (some (.context, attached cs))
  | 's' :: cs => .flags count (some (.set, attached cs))
  | _ => .unknown

/-- A flag written out, with a value after an equals sign. -/
def readLong (cs : List Char) : Argument :=
  let name := String.ofList (cs.takeWhile (· ≠ '='))
  let value := match cs.dropWhile (· ≠ '=') with
    | [] => none
    | _ :: value => some (String.ofList value)
  if name = "context" then .flags 0 (some (.context, value))
  else if name = "set" then .flags 0 (some (.set, value))
  else if name = "verbose" ∧ value = none then .flags 1 none
  else .unknown

def readArgument (argument : String) : Argument :=
  match argument.toList with
  | ['-', '-'] => .terminator
  | '-' :: '-' :: cs => readLong cs
  | '-' :: c :: cs => readShort 0 (c :: cs)
  | _ => .word argument

inductive Verb where
  | eval
  | tokens
  | repl
  deriving Repr, DecidableEq

def Verb.ofName? (name : String) : Option Verb :=
  if name = "eval" then some .eval
  else if name = "tokens" then some .tokens
  else if name = "repl" then some .repl
  else none

/-- What the arguments read so far say. -/
structure Draft where
  /-- The `v` flags since the command, or since the start if there is none yet. -/
  flags : Nat
  /-- The `v` flags before the command. -/
  flagsBefore : Nat
  verb : Option Verb
  expression : Option String
  context : ContextOptions

namespace Draft

def empty : Draft := ⟨0, 0, none, none, ⟨none, []⟩⟩

/-- The draft with more `v` flags. -/
def addFlags (count : Nat) (d : Draft) : Draft :=
  { d with flags := d.flags + count }

/-- The number of `v` flags that count. -/
def verbosity (d : Draft) : Nat :=
  if d.flags = 0 then d.flagsBefore else d.flags

/-- The first word is the command, and the next one its expression. -/
def word (w : String) (d : Draft) : Except UsageError Draft :=
  match d.verb with
  | none =>
    match Verb.ofName? w with
    | some verb => .ok { d with verb := some verb, flags := 0, flagsBefore := d.flags }
    | none => .error (.unknownCommand w)
  | some verb =>
    if verb = .repl ∨ d.expression.isSome then .error (.unexpectedArgument w)
    else .ok { d with expression := some w }

/-- Whether the command that was named takes a context. -/
def takesContext (d : Draft) : Bool :=
  d.verb == some .eval || d.verb == some .repl

def option (argument : String) (opt : Opt) (value : String) (d : Draft) :
    Except UsageError Draft :=
  if !d.takesContext then .error (.unexpectedArgument argument)
  else match opt with
    | .context =>
      if value.isEmpty then .error (.missingValue .context)
      else if d.context.file.isSome then .error (.repeated .context)
      else .ok { d with context := { d.context with file := some value } }
    | .set =>
      match readAssignment value with
      | .ok assignment =>
        let assignments := d.context.assignments ++ [assignment]
        .ok { d with context := { d.context with assignments } }
      | .error fault => .error (.invalidAssignment value fault)

/-- Whether an argument can be the value of the option before it. -/
def isValue (argument : String) : Bool :=
  match readArgument argument with
  | .word _ => true
  | _ => false

def read : List String → Draft → Except UsageError Draft
  | [], d => .ok d
  | argument :: rest, d =>
    match readArgument argument with
    | .terminator => rest.foldlM (fun d w => d.word w) d
    | .unknown => .error (.unexpectedArgument argument)
    | .word w => d.word w >>= read rest
    | .flags count none => read rest (d.addFlags count)
    | .flags count (some (opt, some value)) =>
      (d.addFlags count).option argument opt value >>= read rest
    | .flags count (some (opt, none)) =>
      match rest with
      | [] => .error (.missingValue opt)
      | value :: rest =>
        if isValue value then
          (d.addFlags count).option argument opt value >>= read rest
        else .error (.missingValue opt)

/-- The command that the arguments add up to. Without a word it is to read lines. -/
def command (d : Draft) : Except UsageError Command :=
  match d.verb, d.expression with
  | none, _ | some .repl, _ => .ok (.repl d.context)
  | some .eval, some expression => .ok (.eval expression d.context)
  | some .tokens, some expression => .ok (.tokens expression)
  | _, none => .error .missingExpression

end Draft

/-- Reads the arguments of the program. -/
def Invocation.read (arguments : List String) : Except UsageError Invocation := do
  let draft ← Draft.empty.read arguments
  return ⟨draft.verbosity, ← draft.command⟩

end PredicateLang.CommandLine
