import PredicateLang.CommandLine.Run

/-!
# The program

Reads the arguments, hands files and lines to the command, and prints what it
answers. Lines are answered as they come in.
-/

namespace PredicateLang.CommandLine

/-- The message of an error of the file system, as it is reported to the user. -/
def readFault : IO.Error → String
  | .noFileOrDirectory _ _ _ => "No such file or directory (os error 2)"
  | .permissionDenied _ _ _ => "Permission denied (os error 13)"
  | .inappropriateType _ code details => details ++ " (os error " ++ toString code ++ ")"
  | .userError _ => "stream did not contain valid UTF-8"
  | e => toString e

/-- The file that a command reads. -/
def Command.file? : Command → Option String
  | .eval _ context | .repl context => context.file
  | .tokens _ => none

/-- The files as far as a command reads them. -/
def loadFiles (command : Command) : IO Files := do
  let text ← match command.file? with
    | none => pure (.error "")
    | some path =>
      try
        pure (.ok (← IO.FS.readFile path))
      catch e => pure (.error (readFault e))
  let read (_ : String) : Except String String := text
  return read

/-- Answers lines until the input ends. -/
partial def answerLines (verbosity : Nat) (context : Value) (buffer : List Char) : IO Unit := do
  let output ← IO.getStdout
  output.putStr Repl.prompt
  output.flush
  let line ← (← IO.getStdin).getLine
  if line.isEmpty then return
  let session := Repl.Session.round context line.toList ⟨buffer, "", []⟩
  IO.eprint (logText verbosity session.log)
  output.putStr session.output
  answerLines verbosity context session.buffer

/-- Runs a command on the standard streams. -/
def execute (invocation : Invocation) : IO UInt32 := do
  let files ← loadFiles invocation.command
  match invocation.command with
  | .repl options =>
    match options.members files with
    | .ok members =>
      IO.eprint (logText invocation.verbosity [contextLoaded members])
      IO.print Repl.Session.start.output
      answerLines invocation.verbosity (contextValue members) Repl.Session.start.buffer
      return 0
    | .error fault =>
      IO.eprint ((Outcome.fault fault).errors invocation.verbosity)
      return 1
  | command =>
    let outcome := command.run files ""
    IO.eprint (outcome.errors invocation.verbosity)
    IO.print outcome.output
    return outcome.code.toUInt32

end PredicateLang.CommandLine

open PredicateLang.CommandLine in
def main (arguments : List String) : IO UInt32 := do
  match Invocation.read arguments with
  | .ok invocation => execute invocation
  | .error fault =>
    IO.eprintln fault.message
    return 2
