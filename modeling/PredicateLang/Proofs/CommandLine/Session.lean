import PredicateLang.CommandLine.Run

/-!
# Sessions answer lines one by one

A session keeps one buffer and one context from line to line. The buffer is empty
whenever a line is asked for, and a line is answered from the buffer and the context
alone. So what a session prints is put together from the answers to its lines, and the
answer to a line is what the command that evaluates its text alone shows for it.
-/

namespace PredicateLang.CommandLine.Repl

/-- The lines of a text. A line feed ends a line; the last line may lack it. -/
def lines (text : List Char) : List (List Char) :=
  let all := text.splitOn '\n'
  if all.getLast? = some [] then all.dropLast else all

theorem lines_of_not_mem {line : List Char} (hne : line ≠ []) (h : '\n' ∉ line) :
    lines line = [line] := by
  have hsplit : line.splitOn '\n' = [line] := List.splitOn_eq_singleton h
  simp [lines, hsplit, hne]

theorem lines_append {line : List Char} (h : '\n' ∉ line) (rest : List Char) :
    lines (line ++ '\n' :: rest) = line :: lines rest := by
  have hsplit : (line ++ '\n' :: rest).splitOn '\n' = line :: rest.splitOn '\n' :=
    List.splitOn_append_cons_self_of_not_mem h rest
  have hne : rest.splitOn '\n' ≠ [] := by simp [List.splitOn_ne_nil]
  obtain ⟨first, others, hrest⟩ := List.exists_cons_of_ne_nil hne
  simp only [lines, hsplit, hrest, List.getLast?_cons_cons, List.dropLast_cons_cons]
  split <;> rfl

theorem readLine_of_not_mem {line : List Char} (h : '\n' ∉ line) : readLine line = (line, []) := by
  induction line with
  | nil => rfl
  | cons c cs ih =>
    obtain ⟨hc, hcs⟩ := List.ne_and_not_mem_of_not_mem_cons h
    rw [readLine, if_neg (Ne.symm hc), ih hcs]

theorem readLine_append {line : List Char} (h : '\n' ∉ line) (rest : List Char) :
    readLine (line ++ '\n' :: rest) = (line ++ ['\n'], rest) := by
  induction line with
  | nil => rfl
  | cons c cs ih =>
    obtain ⟨hc, hcs⟩ := List.ne_and_not_mem_of_not_mem_cons h
    rw [List.cons_append, readLine, if_neg (Ne.symm hc), ih hcs]
    rfl

/-- What is read is the first line, up to the line feed that ends it. -/
theorem lines_of_readLine {input : List Char} (h : (readLine input).1 ≠ []) :
    ∃ line, ((readLine input).1 = line ∨ (readLine input).1 = line ++ ['\n']) ∧
      lines input = line :: lines (readLine input).2 := by
  by_cases hmem : '\n' ∈ input
  · obtain ⟨line, rest, rfl, hline⟩ := List.eq_append_cons_of_mem hmem
    rw [readLine_append hline]
    exact ⟨line, .inr rfl, lines_append hline rest⟩
  · rw [readLine_of_not_mem hmem] at h ⊢
    exact ⟨input, .inl rfl, lines_of_not_mem h hmem⟩

theorem lines_of_readLine_eq_nil {input : List Char} (h : (readLine input).1 = []) :
    lines input = [] := by
  cases input with
  | nil => rfl
  | cons c cs =>
    rw [readLine] at h
    split at h <;> cases h

/-- The expression that a line holds. -/
def sourceOf (line : List Char) : String :=
  String.ofList (Text.trim line)

/-- The answer to a line. -/
def reply (context : Value) (line : List Char) : String :=
  if sourceOf line = "" then ""
  else match (evaluateIn context (sourceOf line)).result with
    | .ok v => v.text ++ "\n"
    | .error fault => "Error: " ++ fault.message (sourceOf line) ++ "\n"

/-- What the evaluation of a line reports. -/
def report (context : Value) (line : List Char) : List Log.Record :=
  if sourceOf line = "" then []
  else evaluationLog (sourceOf line) (evaluateIn context (sourceOf line))

theorem sourceOf_append_newline (line : List Char) : sourceOf (line ++ ['\n']) = sourceOf line :=
  congrArg String.ofList (Text.trim_append_blank (by decide) line)

namespace Session

theorem answer_eq (context : Value) (s : Session) :
    s.answer context =
      ⟨s.buffer, s.output ++ reply context s.buffer, s.log ++ report context s.buffer⟩ := by
  by_cases hblank : sourceOf s.buffer = ""
  · have hempty : (String.ofList (Text.trim s.buffer)).isEmpty = true :=
      String.isEmpty_iff.mpr hblank
    simp [answer, reply, report, hblank, hempty]
  · have hempty : ¬ (String.ofList (Text.trim s.buffer)).isEmpty = true :=
      fun hempty => hblank (String.isEmpty_iff.mp hempty)
    simp only [answer, if_neg hempty, reply, report, if_neg hblank]
    rfl

/-- A round that starts with an empty buffer answers its line, and leaves the buffer empty. -/
theorem round_eq (context : Value) (line : List Char) {s : Session} (h : s.buffer = []) :
    s.round context line =
      ⟨[], s.output ++ reply context line, s.log ++ report context line⟩ := by
  simp only [round, answer_eq, h, List.nil_append]

/-- A session answers the lines of its input in order, each from the context alone. -/
theorem run_eq (context : Value) (input : List Char) (s : Session) (h : s.buffer = []) :
    s.run context input =
      ⟨[], s.output ++
          (String.join ((lines input).map fun line => prompt ++ reply context line) ++ prompt),
        s.log ++ (lines input).flatMap (report context)⟩ := by
  induction input, s using Session.run.induct context with
  | case1 input s hread =>
    rw [run, if_pos hread, lines_of_readLine_eq_nil hread]
    simp [print, h]
  | case2 input s hread ih =>
    obtain ⟨line, hline, hlines⟩ := lines_of_readLine hread
    have hsource : sourceOf (readLine input).1 = sourceOf line := by
      rcases hline with hline | hline
      · rw [hline]
      · rw [hline, sourceOf_append_newline]
    have hreply : reply context (readLine input).1 = reply context line := by
      rw [reply, reply, hsource]
    have hreport : report context (readLine input).1 = report context line := by
      rw [report, report, hsource]
    have hround := round_eq context (readLine input).1 (s := s.print prompt) h
    rw [run, if_neg hread, ih (by rw [hround]), hround, hlines, hreply, hreport]
    simp [print, String.append_assoc]

end Session

theorem reply_eq_of_runEval (members : List (String × Json)) {line : List Char}
    (h : sourceOf line ≠ "") :
    let single := runEval members (sourceOf line)
    single.code = 0 ∧ single.error = none ∧ reply (contextValue members) line = single.output ∨
      ∃ message, single.code = 1 ∧ single.output = "" ∧ single.error = some message ∧
        reply (contextValue members) line = errorLine message := by
  unfold reply runEval
  rw [if_neg h]
  -- Only the result matters, so the evaluation is not opened.
  generalize evaluateIn (contextValue members) (sourceOf line) = e
  dsimp only
  cases e.result with
  | ok v => exact .inl ⟨rfl, rfl, rfl⟩
  | error fault => exact .inr ⟨fault.message (sourceOf line), rfl, rfl, rfl, rfl⟩

end Repl

open Repl in
/-- Whatever a session reads, it prints the banner, the answers to the lines in their order, each
after a prompt, and a last prompt, and it ends well. A blank line is answered with nothing. Any
other line is answered with what the command prints that evaluates its text in the same context,
or with the error that this command ends with. -/
theorem run_repl_eq_replies (files : Files) (options : ContextOptions)
    (members : List (String × Json)) (input : String) (h : options.members files = .ok members) :
    let o := (Command.repl options).run files input
    o.code = 0 ∧ o.error = none ∧
    o.output = banner ++ (String.join ((lines input.toList).map fun line =>
      prompt ++ reply (contextValue members) line) ++ prompt) ∧
    ∀ line, (sourceOf line = "" → reply (contextValue members) line = "") ∧
      (sourceOf line ≠ "" → ∀ input',
        let single := (Command.eval (sourceOf line) options).run files input'
        single.code = 0 ∧ single.error = none ∧
            reply (contextValue members) line = single.output ∨
          ∃ message, single.code = 1 ∧ single.output = "" ∧ single.error = some message ∧
            reply (contextValue members) line = errorLine message) := by
  intro o
  have hrun := Session.run_eq (contextValue members) input.toList .start rfl
  have ho : o = runRepl members input := by
    simp only [o, Command.run, h]
  rw [ho, runRepl, hrun]
  refine ⟨rfl, rfl, rfl, fun line => ⟨fun hblank => ?_, fun htext input' => ?_⟩⟩
  · rw [reply, if_pos hblank]
  · have heval : (Command.eval (sourceOf line) options).run files input' =
        runEval members (sourceOf line) := by
      simp only [Command.run, h]
    rw [heval]
    exact reply_eq_of_runEval members htext

/-- A value, a blank line, an error and a line without its line feed. The last line is answered as
the first one was, and as the command that evaluates it alone. -/
theorem run_repl_eq_replies_name :
    let files : Files := ⟨fun _ => .error "", fun _ => ""⟩
    let options : ContextOptions := ⟨none, [("name", .string "x")]⟩
    let o := (Command.repl options).run files "name\n \nname.size\nname"
    let single := (Command.eval "name" options).run files ""
    options.members files = .ok [("name", .string "x")] ∧ o.code = 0 ∧
      o.output = "EOF to exit. (Ctrl+D on *nix, Ctrl+Z on Windows)\n> \"x\"\n> " ++
        "> Error: No such member: size on string\n> \"x\"\n> " ∧
      single.output = "\"x\"\n" := by
  intro files options o single
  have hmembers : options.members files = .ok [("name", .string "x")] := rfl
  obtain ⟨hcode, -, houtput, hlines⟩ :=
    run_repl_eq_replies files options _ "name\n \nname.size\nname" hmembers
  refine ⟨hmembers, hcode, ?_, ?_⟩
  · rw [houtput]
    decide +kernel
  · obtain ⟨-, -, hsingle⟩ | ⟨message, hcode, -⟩ := (hlines "name".toList).2 (by decide) ""
    · exact hsingle.symm.trans (by decide +kernel)
    · exact absurd hcode (by decide +kernel)

end PredicateLang.CommandLine
