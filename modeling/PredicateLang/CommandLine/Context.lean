import PredicateLang.CommandLine.Arguments
import PredicateLang.Log

/-!
# The context of a command

The context is an object: the members of the file, if there is one, and the
assignments after them, so that an assignment replaces the member of its name.
-/

namespace PredicateLang.CommandLine

/-- What a command learns of files: the text of each one, or why it cannot be read, and why a text
is no JSON document. The reasons are worded outside of the program. -/
structure Files where
  read : String → Except String String
  refusal : String → String

/-- Files whose refused texts are all given one reason. -/
instance : Coe (String → Except String String) Files where
  coe read := ⟨read, fun _ => "not a JSON document"⟩

inductive ContextFault where
  | unreadable (path reason : String)
  | notJson (reason : String)
  | notAnObject

def ContextFault.message : ContextFault → String
  | .unreadable path reason => "Could not read " ++ path ++ ": " ++ reason
  | .notJson reason => "Invalid context: " ++ reason
  | .notAnObject => "The context must be a JSON object"

/-- The members of the object in a file. -/
def readMembers (files : Files) (path : String) : Except ContextFault (List (String × Json)) := do
  let text ← (files.read path).mapError (.unreadable path)
  match Json.parse? text with
  | some (.object members) => .ok members
  | some _ => .error .notAnObject
  | none => .error (.notJson (files.refusal text))

namespace ContextOptions

/-- The members of the context, later ones counting more. -/
def members (files : Files) (options : ContextOptions) :
    Except ContextFault (List (String × Json)) := do
  let base ← match options.file with
    | some path => readMembers files path
    | none => .ok []
  return base ++ options.assignments

end ContextOptions

/-- The context that the members make up. -/
def contextValue (members : List (String × Json)) : Value :=
  (Json.object members).toValue ⟨0, []⟩

/-- The record that the context has been put together. -/
def contextLoaded (members : List (String × Json)) : Log.Record :=
  ⟨.debug, "epl", s!"context has {Entries.size members} top-level entries"⟩

/-- There are no host objects behind a context from the command line. -/
def noHosts : World Unit := fun ref => .bare ref.typeName

/-- Evaluates an expression for a command. -/
def evaluateIn (context : Value) (source : String) : Evaluation Unit :=
  evaluate noHosts context () source

/-- What an evaluation reports. Its nodes are not reported one by one. -/
def evaluationLog (source : String) (e : Evaluation Unit) : List Log.Record :=
  Log.ofParsing source e.parsing ++
    match e.parsing.result, e.execution with
    | .ok p, .ok run => Log.ofResult p run.result
    | _, _ => []

end PredicateLang.CommandLine
