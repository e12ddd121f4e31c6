import Mathlib.Data.List.Forall2
import PredicateLang.CommandLine.Arguments

/-!
# Options on the command line

An assignment is a name, an equals sign and a text, where the first equals sign ends the
name. The options of a command may be spelled in several ways, with the value in the same
argument or in the next one. In whatever spelling and order they stand, a command gets the
file that was named and the assignments in the order in which they were given.
-/

namespace PredicateLang.CommandLine

/-- What an argument assigns. A text that is no document is kept as it is. -/
inductive Assigns : String → String × Json → Prop where
  | document {name text : String} {j : Json} (hne : name ≠ "") (hname : '=' ∉ name.toList)
      (hjson : Json.parse? text = some j) : Assigns (name ++ "=" ++ text) (name, j)
  | plain {name text : String} (hne : name ≠ "") (hname : '=' ∉ name.toList)
      (hjson : Json.parse? text = none) : Assigns (name ++ "=" ++ text) (name, .string text)

/-- The argument has an equals sign after a name that is not empty. -/
def IsAssignment (argument : String) : Prop :=
  '=' ∈ argument.toList ∧ argument.toList.head? ≠ some '='
deriving Decidable

theorem exists_assigns {argument : String} (h : IsAssignment argument) :
    ∃ assignment, Assigns argument assignment := by
  obtain ⟨hmem, hhead⟩ := h
  obtain ⟨name, text, hargument, hname⟩ := List.eq_append_cons_of_mem hmem
  have heq : argument = String.ofList name ++ "=" ++ String.ofList text := by
    rw [← String.toList_inj, hargument]
    simp
  have hne : String.ofList name ≠ "" := by
    intro hempty
    obtain rfl : name = [] := String.ofList_eq_empty_iff.mp hempty
    rw [hargument] at hhead
    exact hhead rfl
  have hfree : '=' ∉ (String.ofList name).toList := by rwa [String.toList_ofList]
  rw [heq]
  cases hjson : Json.parse? (String.ofList text) with
  | some j => exact ⟨_, .document hne hfree hjson⟩
  | none => exact ⟨_, .plain hne hfree hjson⟩

theorem exists_assignments {settings : List String}
    (h : ∀ setting ∈ settings, IsAssignment setting) :
    ∃ assignments, List.Forall₂ Assigns settings assignments := by
  induction settings with
  | nil => exact ⟨[], .nil⟩
  | cons setting rest ih =>
    obtain ⟨assignment, hassign⟩ := exists_assigns (h setting (List.mem_cons_self ..))
    obtain ⟨others, hothers⟩ := ih fun other hother => h other (List.mem_cons_of_mem _ hother)
    exact ⟨assignment :: others, .cons hassign hothers⟩

theorem readAssignment_append {name : String} (hne : name ≠ "") (hname : '=' ∉ name.toList)
    (text : String) :
    readAssignment (name ++ "=" ++ text) = .ok (name, (Json.parse? text).getD (.string text)) := by
  have hlist : (name ++ "=" ++ text).toList = name.toList ++ '=' :: text.toList := by simp
  have htake : (name.toList ++ '=' :: text.toList).takeWhile (· ≠ '=') = name.toList := by
    rw [List.takeWhile_append_of_pos fun c hc => by
      simpa using fun heq : c = '=' => hname (heq ▸ hc)]
    simp
  have hempty : ¬ name.toList.isEmpty = true := by simpa using hne
  simp only [readAssignment, hlist, htake, List.drop_left, if_neg hempty, String.ofList_toList]

theorem Assigns.readAssignment_eq {argument : String} {assignment : String × Json}
    (h : Assigns argument assignment) : readAssignment argument = .ok assignment := by
  cases h with
  | document hne hname hjson => rw [readAssignment_append hne hname, hjson, Option.getD_some]
  | plain hne hname hjson => rw [readAssignment_append hne hname, hjson, Option.getD_none]

namespace Opt

def long : Opt → String
  | .context => "--context"
  | .set => "--set"

def short : Opt → String
  | .context => "-c"
  | .set => "-s"

/-- The arguments that give an option a value. A value in an argument of its own does not start
with a dash, unless it is nothing else. -/
inductive Spells (o : Opt) (value : String) : List String → Prop where
  | long : Spells o value [o.long ++ "=" ++ value]
  | short : Spells o value [o.short ++ "=" ++ value]
  | attached (hne : value ≠ "") (hhead : value.toList.head? ≠ some '=') :
      Spells o value [o.short ++ value]
  | longApart (h : value = "-" ∨ value.toList.head? ≠ some '-') : Spells o value [o.long, value]
  | shortApart (h : value = "-" ∨ value.toList.head? ≠ some '-') : Spells o value [o.short, value]

end Opt

/-- The arguments name a file, or none, and give these settings in this order. -/
inductive Written : List String → Option String → List String → Prop where
  | nil : Written [] none []
  | context {path : String} {words arguments settings : List String} (hne : path ≠ "")
      (hwords : Opt.context.Spells path words) (hrest : Written arguments none settings) :
      Written (words ++ arguments) (some path) settings
  | set {setting : String} {words arguments settings : List String} {file : Option String}
      (hwords : Opt.set.Spells setting words) (hrest : Written arguments file settings) :
      Written (words ++ arguments) file (setting :: settings)

namespace Draft

theorem isValue_of_head {value : String} (h : value = "-" ∨ value.toList.head? ≠ some '-') :
    isValue value = true := by
  rcases h with rfl | h
  · rfl
  · have hword : readArgument value = .word value := by
      cases hlist : value.toList with
      | nil => simp [readArgument, hlist]
      | cons c cs =>
        have hc : c ≠ '-' := fun heq => h (by rw [hlist, heq]; rfl)
        simp [readArgument, hlist, hc]
    rw [isValue, hword]

theorem read_attached {argument value : String} {o : Opt}
    (h : readArgument argument = .flags 0 (some (o, some value))) (rest : List String)
    (d : Draft) : d.read (argument :: rest) = d.option argument o value >>= read rest := by
  rw [read, h]
  rfl

theorem read_apart {argument value : String} {o : Opt}
    (h : readArgument argument = .flags 0 (some (o, none))) (hvalue : isValue value = true)
    (rest : List String) (d : Draft) :
    d.read (argument :: value :: rest) = d.option argument o value >>= read rest := by
  rw [read, h]
  exact if_pos hvalue

/-- An option in any spelling. The argument that it is read from matters only for errors. -/
theorem read_spells {o : Opt} {value : String} {words : List String} (h : o.Spells value words)
    (rest : List String) (d : Draft) :
    ∃ argument, d.read (words ++ rest) = d.option argument o value >>= read rest := by
  cases h with
  | long =>
    have hread : readArgument (o.long ++ "=" ++ value) = .flags 0 (some (o, some value)) := by
      cases o <;> simp [Opt.long, readArgument, readLong]
    exact ⟨_, read_attached hread rest d⟩
  | short =>
    have hread : readArgument (o.short ++ "=" ++ value) = .flags 0 (some (o, some value)) := by
      cases o <;> simp [Opt.short, readArgument, readShort, attached]
    exact ⟨_, read_attached hread rest d⟩
  | attached hne hhead =>
    have hvalue : attached value.toList = some value := by
      unfold attached
      split
      · rename_i heq
        exact absurd (String.toList_eq_nil_iff.mp heq) hne
      · rename_i heq
        rw [heq] at hhead
        exact absurd rfl hhead
      · rw [String.ofList_toList]
    have hread : readArgument (o.short ++ value) = .flags 0 (some (o, some value)) := by
      cases o <;> simp [Opt.short, readArgument, readShort, hvalue]
    exact ⟨_, read_attached hread rest d⟩
  | longApart h =>
    have hread : readArgument o.long = .flags 0 (some (o, none)) := by cases o <;> rfl
    exact ⟨_, read_apart hread (isValue_of_head h) rest d⟩
  | shortApart h =>
    have hread : readArgument o.short = .flags 0 (some (o, none)) := by cases o <;> rfl
    exact ⟨_, read_apart hread (isValue_of_head h) rest d⟩

/-- The options add the file and the assignments to what was read before. -/
theorem read_written {arguments settings : List String} {file : Option String}
    (h : Written arguments file settings) {assignments : List (String × Json)}
    (hassigns : List.Forall₂ Assigns settings assignments) (rest : List String) (d : Draft)
    (htakes : d.takesContext = true) (hfile : file = none ∨ d.context.file = none) :
    d.read (arguments ++ rest) =
      read rest { d with
        context := ⟨file.or d.context.file, d.context.assignments ++ assignments⟩ } := by
  induction h generalizing assignments d with
  | nil =>
    cases hassigns
    rw [List.append_nil]
    rfl
  | @context path words arguments settings hne hwords hrest ih =>
    obtain ⟨argument, hread⟩ := read_spells hwords (arguments ++ rest) d
    have hnone : d.context.file = none := hfile.resolve_left (by simp)
    have hoption : d.option argument .context path =
        .ok { d with context := ⟨some path, d.context.assignments⟩ } := by
      simp [option, htakes, hne, hnone]
    rw [List.append_assoc, hread, hoption]
    exact ih hassigns { d with context := ⟨some path, d.context.assignments⟩ } htakes (.inl rfl)
  | @set setting words arguments settings file hwords hrest ih =>
    obtain ⟨argument, hread⟩ := read_spells hwords (arguments ++ rest) d
    obtain _ | @⟨_, assignment, _, others, hassign, hothers⟩ := hassigns
    have hoption : d.option argument .set setting =
        .ok { d with context := ⟨d.context.file, d.context.assignments ++ [assignment]⟩ } := by
      simp [option, htakes, hassign.readAssignment_eq]
    have hlist : d.context.assignments ++ assignment :: others =
        d.context.assignments ++ [assignment] ++ others := by simp
    rw [List.append_assoc, hread, hoption, hlist]
    exact ih hothers { d with context := ⟨d.context.file, d.context.assignments ++ [assignment]⟩ }
      htakes hfile

end Draft

/-- The command that evaluates an expression, with its options before the expression. -/
theorem read_eval {arguments settings : List String} {file : Option String}
    (h : Written arguments file settings) {assignments : List (String × Json)}
    (hassigns : List.Forall₂ Assigns settings assignments) (expression : String) :
    Invocation.read ("eval" :: arguments ++ ["--", expression]) =
      .ok ⟨0, .eval expression ⟨file, assignments⟩⟩ := by
  let d : Draft := { Draft.empty with verb := some .eval }
  have hword : Draft.empty.read ("eval" :: arguments ++ ["--", expression]) =
      d.read (arguments ++ ["--", expression]) := rfl
  have hoptions := Draft.read_written h hassigns ["--", expression] d rfl (.inr rfl)
  have hfile : file.or d.context.file = file := Option.or_none
  rw [hfile] at hoptions
  rw [Invocation.read, hword, hoptions]
  rfl

end PredicateLang.CommandLine
