import PredicateLang.Proofs.CommandLine.Options
import PredicateLang.Proofs.CommandLine.Session
import PredicateLang.Proofs.Eval.FreeNames
import PredicateLang.Proofs.Json.Navigation
import PredicateLang.Proofs.Value.Entries

/-!
# Assignments override the context file

The context of a command is the object in its file with the assignments put over it, key
by key: the last assignment to a name counts, and the file only where there is none. Names
lead to nothing else in it, so an evaluation depends on what each name was set to last, and
on neither the order of assignments to different names nor what was overridden. A file
that gives no object ends the command before anything is evaluated.
-/

namespace PredicateLang.CommandLine

/-- What the file of a command gives: an object, or the reason why there is none. Without a file
the object is empty. -/
inductive FileGives (files : Files) :
    Option String → Except ContextFault (List (String × Json)) → Prop where
  | nothing : FileGives files none (.ok [])
  | object {path text : String} {base : List (String × Json)} (hread : files.read path = .ok text)
      (hjson : Json.parse? text = some (.object base)) : FileGives files (some path) (.ok base)
  | unreadable {path reason : String} (hread : files.read path = .error reason) :
      FileGives files (some path) (.error (.unreadable path reason))
  | notJson {path text : String} (hread : files.read path = .ok text)
      (hjson : Json.parse? text = none) :
      FileGives files (some path) (.error (.notJson (files.refusal text)))
  | notAnObject {path text : String} {j : Json} (hread : files.read path = .ok text)
      (hjson : Json.parse? text = some j) (hother : ∀ members, j ≠ .object members) :
      FileGives files (some path) (.error .notAnObject)

theorem exists_fileGives (files : Files) (file : Option String) :
    ∃ given, FileGives files file given := by
  cases file with
  | none => exact ⟨_, .nothing⟩
  | some path =>
    cases hread : files.read path with
    | error reason => exact ⟨_, .unreadable hread⟩
    | ok text =>
      cases hjson : Json.parse? text with
      | none => exact ⟨_, .notJson hread hjson⟩
      | some j =>
        cases j with
        | object base => exact ⟨_, .object hread hjson⟩
        | _ => exact ⟨_, .notAnObject hread hjson fun _ h => by cases h⟩

theorem readMembers_of_read {files : Files} {path text : String} (hread : files.read path = .ok text) :
    readMembers files path =
      match Json.parse? text with
      | some (.object members) => .ok members
      | some _ => .error .notAnObject
      | none => .error (.notJson (files.refusal text)) := by
  rw [readMembers, hread]
  rfl

theorem members_some (files : Files) (path : String) (assignments : List (String × Json)) :
    ContextOptions.members files ⟨some path, assignments⟩ =
      (readMembers files path).map (· ++ assignments) := by
  change (readMembers files path >>= fun base => pure (base ++ assignments)) = _
  cases readMembers files path <;> rfl

theorem FileGives.members_eq {files : Files} {file : Option String}
    {given : Except ContextFault (List (String × Json))} (h : FileGives files file given)
    (assignments : List (String × Json)) :
    ContextOptions.members files ⟨file, assignments⟩ = given.map (· ++ assignments) := by
  cases h with
  | nothing => rfl
  | object hread hjson => rw [members_some, readMembers_of_read hread, hjson]
  | unreadable hread =>
    rw [members_some, readMembers, hread]
    rfl
  | notJson hread hjson => rw [members_some, readMembers_of_read hread, hjson]
  | @notAnObject path text j hread hjson hother =>
    rw [members_some, readMembers_of_read hread, hjson]
    cases j with
    | object members => exact absurd rfl (hother members)
    | _ => rfl

/-- An object that holds under each key the last assignment, or else what the base has last. -/
def Overrides (assignments base merged : List (String × Json)) : Prop :=
  ∀ name, Entries.get? name merged =
    ((Entries.under name assignments).getLast?).or (Entries.under name base).getLast?

theorem overrides_append (assignments base : List (String × Json)) :
    Overrides assignments base (base ++ assignments) := by
  intro name
  rw [Entries.get?_append, Entries.get?_eq_getLast?, Entries.get?_eq_getLast?]

/-- The command has printed the value, or has ended with the error. -/
def Outcome.Shows (o : Outcome) (source : String) : Except Error Value → Prop
  | .ok v => o.code = 0 ∧ o.output = v.text ++ "\n" ∧ o.error = none
  | .error fault => o.code = 1 ∧ o.output = "" ∧ o.error = some (fault.message source)

theorem runEval_shows (members : List (String × Json)) (source : String) :
    (runEval members source).Shows source (evaluateIn (contextValue members) source).result := by
  unfold runEval
  -- Only the result matters, so the evaluation is not opened.
  generalize evaluateIn (contextValue members) source = e
  dsimp only
  cases e.result with
  | ok v => exact ⟨rfl, rfl, rfl⟩
  | error fault => exact ⟨rfl, rfl, rfl⟩

section Congruence

variable {members members' : List (String × Json)}

theorem resolve_contextValue_congr {σ : Type} (world : World σ)
    (h : ∀ name, Entries.get? name members = Entries.get? name members') (name : String) :
    resolve world (contextValue members) name = resolve world (contextValue members') name := by
  funext state
  rw [contextValue, contextValue, Json.resolve_toValue, Json.resolve_toValue, Json.navigate,
    Json.navigate, h name]

/-- Objects that hold the same under each key cannot be told apart by evaluating against them. -/
theorem evaluateIn_congr (h : ∀ name, Entries.get? name members = Entries.get? name members')
    (source : String) :
    (evaluateIn (contextValue members) source).result =
        (evaluateIn (contextValue members') source).result ∧
      evaluationLog source (evaluateIn (contextValue members) source) =
        evaluationLog source (evaluateIn (contextValue members') source) := by
  unfold evaluationLog evaluateIn evaluate Evaluation.result
  cases hparse : (parse source).result with
  | error e => simp only [hparse, Except.map, and_self]
  | ok p =>
    have hrun := (Interpreter.run_start_congr noHosts (e := p.root) () fun name _ =>
      resolve_contextValue_congr noHosts h name).1
    simp only [hparse, Except.map, Program.exec, hrun, and_self]

theorem runEval_congr (h : ∀ name, Entries.get? name members = Entries.get? name members')
    (source : String) : runEval members source = runEval members' source := by
  obtain ⟨hresult, hlog⟩ := evaluateIn_congr h source
  unfold runEval contextLoaded
  generalize evaluateIn (contextValue members) source = e at *
  generalize evaluateIn (contextValue members') source = e' at *
  simp only [Entries.size_congr h, hresult, hlog]

theorem runRepl_congr (h : ∀ name, Entries.get? name members = Entries.get? name members')
    (input : String) : runRepl members input = runRepl members' input := by
  have hreply : Repl.reply (contextValue members) = Repl.reply (contextValue members') := by
    funext line
    rw [Repl.reply, Repl.reply, (evaluateIn_congr h _).1]
  have hreport : Repl.report (contextValue members) = Repl.report (contextValue members') := by
    funext line
    rw [Repl.report, Repl.report, (evaluateIn_congr h _).2]
  rw [runRepl, runRepl, Repl.Session.run_eq (contextValue members) input.toList .start rfl,
    Repl.Session.run_eq (contextValue members') input.toList .start rfl, hreply, hreport,
    contextLoaded, contextLoaded, Entries.size_congr h]

end Congruence

theorem FileGives.run_eval_ok {files : Files} {file : Option String}
    {base : List (String × Json)} (h : FileGives files file (.ok base))
    (assignments : List (String × Json)) (expression input : String) :
    (Command.eval expression ⟨file, assignments⟩).run files input =
      runEval (base ++ assignments) expression := by
  simp only [Command.run, h.members_eq, Except.map]

/-- The same assignments to each name in the same order make the same context. -/
theorem FileGives.run_congr {files : Files} {file : Option String}
    {given : Except ContextFault (List (String × Json))} (h : FileGives files file given)
    {assignments assignments' : List (String × Json)}
    (hunder : ∀ name, Entries.under name assignments = Entries.under name assignments')
    (expression input : String) :
    (Command.eval expression ⟨file, assignments⟩).run files input =
        (Command.eval expression ⟨file, assignments'⟩).run files input ∧
      (Command.repl ⟨file, assignments⟩).run files input =
        (Command.repl ⟨file, assignments'⟩).run files input := by
  simp only [Command.run, h.members_eq]
  cases given with
  | error fault => exact ⟨rfl, rfl⟩
  | ok base =>
    have hget (name : String) : Entries.get? name (base ++ assignments) =
        Entries.get? name (base ++ assignments') := by
      rw [overrides_append, overrides_append, hunder]
    exact ⟨runEval_congr hget expression, runRepl_congr hget input⟩

/-- However the options of a command are spelled, its context is the object in the file, or the
empty one, with the assignments over it. A name leads to the value that was assigned to it last,
or else to the last one that the object has for it, or else to nil. What the command shows is what
evaluating the expression against any object shows that holds this much. Assignments to different
names may be reordered. Where the file gives no object, the command fails and reports nothing of
an evaluation. -/
theorem eval_overrides_file {arguments settings : List String} {file : Option String}
    (hwritten : Written arguments file settings)
    (hset : ∀ setting ∈ settings, IsAssignment setting) (expression : String) :
    ∃ assignments, List.Forall₂ Assigns settings assignments ∧
      Invocation.read ("eval" :: arguments ++ ["--", expression]) =
        .ok ⟨0, .eval expression ⟨file, assignments⟩⟩ ∧
      ∀ (files : Files) (input : String),
        let o := (Command.eval expression ⟨file, assignments⟩).run files input
        (∃ given, FileGives files file given) ∧
        (∀ fault, FileGives files file (.error fault) →
          o = ⟨1, "", [], some fault.message⟩) ∧
        (∀ base, FileGives files file (.ok base) →
          ∃ members, ContextOptions.members files ⟨file, assignments⟩ = .ok members ∧
            (∀ {σ : Type} (world : World σ) (name : String) (state : σ),
              resolve world (contextValue members) name state =
                (.ok ((((Entries.under name assignments).getLast?).or
                  (Entries.under name base).getLast?).elim .nil (Json.toValue ⟨0, [name]⟩)),
                  state)) ∧
            ∀ merged, Overrides assignments base merged →
              o.Shows expression
                (evaluate noHosts ((Json.object merged).toValue ⟨0, []⟩) () expression).result) ∧
        ∀ assignments' : List (String × Json),
          (∀ name, Entries.under name assignments = Entries.under name assignments') →
          o = (Command.eval expression ⟨file, assignments'⟩).run files input ∧
            (Command.repl ⟨file, assignments⟩).run files input =
              (Command.repl ⟨file, assignments'⟩).run files input := by
  obtain ⟨assignments, hassigns⟩ := exists_assignments hset
  refine ⟨assignments, hassigns, read_eval hwritten hassigns expression, fun files input => ?_⟩
  obtain ⟨given, hgiven⟩ := exists_fileGives files file
  refine ⟨⟨given, hgiven⟩, fun fault hfault => ?_, fun base hbase => ?_,
    fun assignments' hunder => hgiven.run_congr hunder expression input⟩
  · simp only [Command.run, hfault.members_eq]
    rfl
  · refine ⟨base ++ assignments, hbase.members_eq assignments, fun world name state => ?_,
      fun merged hmerged => ?_⟩
    · rw [contextValue, Json.resolve_toValue, Json.navigate, overrides_append]
      cases ((Entries.under name assignments).getLast?).or (Entries.under name base).getLast? <;>
        rfl
    · have hget (name : String) :
          Entries.get? name (base ++ assignments) = Entries.get? name merged := by
        rw [overrides_append, hmerged]
      have hshows := runEval_shows (base ++ assignments) expression
      rw [(evaluateIn_congr hget expression).1] at hshows
      rw [hbase.run_eval_ok]
      exact hshows

/-- One name is assigned twice, at last to a text that is no document and has an equals sign of
its own, and one name is left to the file. -/
theorem eval_overrides_file_twice :
    let arguments := ["--set=x=true", "-c", "base.json", "-sx=a=b", "--set", "y=null"]
    let settings := ["x=true", "x=a=b", "y=null"]
    let expression := "x == \"a=b\" && y == nil && z"
    let files : Files := ⟨fun _ => .ok "\x7b\"x\": false, \"z\": true\x7d", fun _ => ""⟩
    Written arguments (some "base.json") settings ∧
      (∀ setting ∈ settings, IsAssignment setting) ∧
      ∃ assignments, List.Forall₂ Assigns settings assignments ∧
        Invocation.read ("eval" :: arguments ++ ["--", expression]) =
          .ok ⟨0, .eval expression ⟨some "base.json", assignments⟩⟩ ∧
        ((Command.eval expression ⟨some "base.json", assignments⟩).run files "").output =
          "true\n" := by
  intro arguments settings expression files
  have hwritten : Written arguments (some "base.json") settings := by
    have hlong : "--set=x=true" = Opt.set.long ++ "=" ++ "x=true" := by decide
    have hattached : "-sx=a=b" = Opt.set.short ++ "x=a=b" := by decide
    have hx : Opt.set.Spells "x=true" ["--set=x=true"] := hlong ▸ .long
    have hfile : Opt.context.Spells "base.json" ["-c", "base.json"] :=
      .shortApart (.inr (by decide))
    have hagain : Opt.set.Spells "x=a=b" ["-sx=a=b"] :=
      hattached ▸ .attached (by decide) (by decide)
    have hy : Opt.set.Spells "y=null" ["--set", "y=null"] := .longApart (.inr (by decide))
    exact .set hx (.context (by decide) hfile (.set hagain (.set hy .nil)))
  have hset : ∀ setting ∈ settings, IsAssignment setting := by decide
  obtain ⟨assignments, hassigns, hread, hrun⟩ :=
    eval_overrides_file hwritten hset expression
  refine ⟨hwritten, hset, assignments, hassigns, hread, ?_⟩
  have hassignments : assignments = [("x", .boolean true), ("x", .string "a=b"), ("y", .null)] := by
    have hx : readAssignment "x=true" = .ok ("x", .boolean true) := by with_unfolding_all rfl
    have hagain : readAssignment "x=a=b" = .ok ("x", .string "a=b") := by with_unfolding_all rfl
    have hy : readAssignment "y=null" = .ok ("y", .null) := by with_unfolding_all rfl
    have hlist := hassigns
    simp only [settings, List.forall₂_cons_left_iff, List.forall₂_nil_left_iff] at hlist
    obtain ⟨a, _, ha, ⟨b, _, hb, ⟨c, _, hc, rfl, rfl⟩, rfl⟩, rfl⟩ := hlist
    cases ha.readAssignment_eq.symm.trans hx
    cases hb.readAssignment_eq.symm.trans hagain
    cases hc.readAssignment_eq.symm.trans hy
    rfl
  subst hassignments
  let base := [("x", Json.boolean false), ("z", Json.boolean true)]
  have hbase : FileGives files (some "base.json") (.ok base) :=
    .object rfl (by with_unfolding_all rfl)
  obtain ⟨-, -, hmerged, -⟩ := hrun files ""
  obtain ⟨-, -, -, hshows⟩ := hmerged base hbase
  let merged := base ++ [("x", .boolean true), ("x", .string "a=b"), ("y", .null)]
  have hshown := hshows merged (overrides_append _ base)
  have htext : (evaluate noHosts ((Json.object merged).toValue ⟨0, []⟩) ()
      expression).result.toOption.map Value.text = some "true" := by decide +kernel
  generalize (evaluate noHosts ((Json.object merged).toValue ⟨0, []⟩) () expression).result = r
    at hshown htext
  cases r with
  | error fault => cases htext
  | ok v =>
    obtain ⟨-, houtput, -⟩ := hshown
    rw [houtput, Option.some.inj htext]
    decide

end PredicateLang.CommandLine
