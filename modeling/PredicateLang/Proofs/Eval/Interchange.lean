import PredicateLang.Log
import PredicateLang.Proofs.Eval.Stackless
import PredicateLang.Proofs.Grammar.Rendering

/-!
# How dots are grouped

A tree may be put in the place of another one if no evaluation tells the two apart, from
whatever frames it starts and whatever the host does. The grouping of dots is of that kind:
a member access evaluates its parts one after another, each against the value of the one
before it, and only the pushing and popping of frames depends on how the parts are grouped.
The text of a tree does not show the grouping either.
-/

namespace PredicateLang

variable {σ : Type}

/-- The interpreter with an empty record of what it asks the host. -/
def Interpreter.watched (m : Interpreter σ) : Interpreter (σ × List HostCall) :=
  ⟨m.frames, (m.state, []), m.trace⟩

namespace Expr

/-- From any interpreter and in any world, evaluating the one tree or the other has the same
result, asks the host the same questions in the same order, and leaves the same host and the same
frames. -/
structure Interchangeable (e e' : Expr) : Prop where
  result : ∀ {σ : Type} (world : World σ) (m : Interpreter σ),
    (m.evaluate world e).1 = (m.evaluate world e').1
  state : ∀ {σ : Type} (world : World σ) (m : Interpreter σ),
    (m.evaluate world e).2.state = (m.evaluate world e').2.state
  calls : ∀ {σ : Type} (world : World σ) (m : Interpreter σ),
    (m.watched.evaluate world.watched e).2.state = (m.watched.evaluate world.watched e').2.state
  frames : ∀ {σ : Type} (world : World σ) (m : Interpreter σ),
    (m.evaluate world e).2.frames = (m.evaluate world e').2.frames

/-- Trees that do the same to every base value are interchangeable. -/
theorem Interchangeable.of_evaluateAgainst {e e' : Expr}
    (h : ∀ {σ : Type} (world : World σ), evaluateAgainst world e = evaluateAgainst world e') :
    e.Interchangeable e' := by
  have heq {σ : Type} (world : World σ) (m : Interpreter σ) :
      (m.evaluate world e).1 = (m.evaluate world e').1 ∧
        (m.evaluate world e).2.state = (m.evaluate world e').2.state ∧
        (m.evaluate world e).2.frames = (m.evaluate world e').2.frames := by
    obtain ⟨trace, he, -⟩ := Interpreter.evaluate_eq world e m
    obtain ⟨trace', he', -⟩ := Interpreter.evaluate_eq world e' m
    rw [he, he', h world]
    exact ⟨rfl, rfl, rfl⟩
  exact ⟨fun world m => (heq world m).1, fun world m => (heq world m).2.1,
    fun world m => (heq world.watched m.watched).2.1, fun world m => (heq world m).2.2⟩

/-- The trees differ in nothing but how dots are grouped, at the root or anywhere below it. -/
inductive Regroups : Expr → Expr → Prop
  | dots (x y z : Expr) : Regroups (.member (.member x y) z) (.member x (.member y z))
  | refl (e : Expr) : Regroups e e
  | symm {e e' : Expr} : Regroups e e' → Regroups e' e
  | trans {e e' e'' : Expr} : Regroups e e' → Regroups e' e'' → Regroups e e''
  | member {base base' path path' : Expr} : Regroups base base' → Regroups path path' →
      Regroups (.member base path) (.member base' path')
  | binary {left left' right right' : Expr} (op : BinaryOp) : Regroups left left' →
      Regroups right right' → Regroups (.binary op left right) (.binary op left' right')

namespace Regroups

variable {e e' : Expr}

theorem evaluateAgainst_eq (world : World σ) (h : Regroups e e') :
    evaluateAgainst world e = evaluateAgainst world e' := by
  induction h with
  | dots x y z =>
    funext base
    exact bind_assoc (evaluateAgainst world x base) (evaluateAgainst world y)
      (evaluateAgainst world z)
  | refl e => rfl
  | symm _ ih => exact ih.symm
  | trans _ _ ih ih' => exact ih.trans ih'
  | member _ _ ihb ihp =>
    funext base
    rw [evaluateAgainst, evaluateAgainst, ihb, ihp]
  | binary op _ _ ihl ihr =>
    funext base
    rw [evaluateAgainst_binary, evaluateAgainst_binary, ihl, ihr]

theorem interchangeable (h : Regroups e e') : e.Interchangeable e' :=
  .of_evaluateAgainst fun world => h.evaluateAgainst_eq world

/-- Parentheses are written around operators only. -/
theorem text_eq (h : Regroups e e') : e.text = e'.text := by
  induction h with
  | dots x y z => simp only [text, String.append_assoc]
  | refl e => rfl
  | symm _ ih => exact ih.symm
  | trans _ _ ih ih' => exact ih.trans ih'
  | member _ _ ihb ihp => rw [text, text, ihb, ihp]
  | binary op _ _ ihl ihr => rw [text, text, ihl, ihr]

end Regroups

/-- What stands between the dots of a tree, from left to right: a first part and those after it.
No part is a member access itself. -/
def parts : Expr → Expr × List Expr
  | .member base path => (base.parts.1, base.parts.2 ++ path.parts.1 :: path.parts.2)
  | .literal l => (.literal l, [])
  | .identifier name => (.identifier name, [])
  | .binary op left right => (.binary op left right, [])

/-- The tree with these parts in which every path goes on to the end. -/
def dotted (first : Expr) : List Expr → Expr
  | [] => first
  | next :: rest => .member first (dotted next rest)

theorem regroups_dotted_append (first next : Expr) (parts rest : List Expr) :
    Regroups (.member (dotted first parts) (dotted next rest))
      (dotted first (parts ++ next :: rest)) := by
  induction parts generalizing first with
  | nil => exact .refl _
  | cons part parts ih => exact .trans (.dots _ _ _) (.member (.refl first) (ih part))

theorem regroups_dotted_parts (e : Expr) : Regroups e (dotted e.parts.1 e.parts.2) := by
  induction e with
  | member base path ihb ihp => exact .trans (.member ihb ihp) (regroups_dotted_append ..)
  | literal | identifier | binary => exact .refl _

/-- Trees with the same parts are groupings of the same dots. -/
theorem regroups_of_parts_eq {e e' : Expr} (h : e.parts = e'.parts) : Regroups e e' := by
  have hchain := e'.regroups_dotted_parts
  rw [← h] at hchain
  exact e.regroups_dotted_parts.trans hchain.symm

end Expr

/-- Moving the dots of three trees from one grouping to the other is not noticed by any evaluation.
Neither is any regrouping of any number of dots, anywhere in a tree; it leaves the text as it is.
Programs that differ in this alone have the same runs, and a failing run leaves the same record. -/
theorem interchangeable_of_regroups :
    (∀ x y z : Expr, (Expr.member x (.member y z)).Interchangeable (.member (.member x y) z)) ∧
    (∀ e e' : Expr, e.parts = e'.parts → e.Regroups e') ∧
    (∀ e e' : Expr, e.Regroups e' → e.Interchangeable e' ∧ e.text = e'.text) ∧
    ∀ p p' : Program, p.root.Regroups p'.root → p.text = p'.text ∧
      ∀ (σ : Type) (world : World σ) (context : Value) (state : σ),
        let run := p.exec world context state
        let run' := p'.exec world context state
        (run.result = run'.result ∧ run.state = run'.state) ∧
          Log.ofResult p run.result = Log.ofResult p' run'.result ∧
          (p.exec world.watched context (state, [])).state =
            (p'.exec world.watched context (state, [])).state := by
  refine ⟨fun x y z => ?_, fun e e' h => Expr.regroups_of_parts_eq h,
    fun e e' h => ⟨h.interchangeable, h.text_eq⟩, fun p p' h => ⟨h.text_eq, ?_⟩⟩
  · exact (Expr.Regroups.dots x y z).symm.interchangeable
  · intro σ world context state run run'
    have hsame := h.interchangeable
    have hresult : run.result = run'.result := hsame.result world (.start context state)
    have htext : p.text = p'.text := h.text_eq
    refine ⟨⟨hresult, hsame.state world (.start context state)⟩, ?_,
      hsame.calls world (.start context state)⟩
    rw [hresult]
    cases run'.result with
    | ok v => rfl
    | error e => simp only [Log.ofResult, Log.failed, htext]

/-- Parentheses can write every grouping, unless it is too deep. -/
theorem exists_parse_eq {e : Expr} {words : List (List Char)} (h : e.Written words)
    (he : e.Writable) (hne : words ≠ []) (hdepth : 8 * words.length ≤ defaultDepth) :
    ∃ source, (parse source).result = .ok ⟨e⟩ := by
  obtain ⟨text, hspaced⟩ := exists_spaced hne
  exact ⟨_, ((h.reads he).parseWith_eq hspaced Text.Blank.nil).2 _ hdepth⟩

/-- Both groupings of three names ask the host three times and fail at the third. -/
theorem interchangeable_of_regroups_names :
    let p : Program := ⟨.member (.member (.identifier "a") (.identifier "b")) (.identifier "c")⟩
    let p' : Program := ⟨.member (.identifier "a") (.member (.identifier "b") (.identifier "c"))⟩
    let node := Value.host ⟨7, "node"⟩
    let world : World Nat := fun _ => .resolver fun _ n =>
      (if n < 2 then .ok node else .error ⟨"no more"⟩, n + 1)
    (∃ source, (parse source).result = .ok p) ∧ (∃ source, (parse source).result = .ok p') ∧
      p.text = p'.text ∧
      (p'.exec world node 0).result = .error (.host "c" ⟨"no more"⟩) ∧
      (p.exec world node 0).result = .error (.host "c" ⟨"no more"⟩) ∧
      (p.exec world node 0).state = 3 := by
  intro p p' node world
  obtain ⟨-, hregroups, -, hprograms⟩ := interchangeable_of_regroups
  obtain ⟨htext, hruns⟩ := hprograms p p' (hregroups _ _ rfl)
  obtain ⟨⟨hresult, hstate⟩, -⟩ := hruns Nat world node 0
  have ha : IsName "a" :=
    ⟨⟨'a', [], rfl, rfl, fun _ hc => (by cases hc)⟩, by decide, by decide, by decide⟩
  have hb : IsName "b" :=
    ⟨⟨'b', [], rfl, rfl, fun _ hc => (by cases hc)⟩, by decide, by decide, by decide⟩
  have hc : IsName "c" :=
    ⟨⟨'c', [], rfl, rfl, fun _ hc => (by cases hc)⟩, by decide, by decide, by decide⟩
  have hleft : ∃ source, (parse source).result = .ok p :=
    exists_parse_eq (.member (.member (.identifier "a") (.identifier "b")) (.identifier "c"))
      ⟨⟨ha, hb, rfl⟩, hc, rfl⟩ (List.cons_ne_nil _ _) (by decide)
  have hright : ∃ source, (parse source).result = .ok p' :=
    exists_parse_eq (.member (.identifier "a") (.member (.identifier "b") (.identifier "c")))
      ⟨ha, ⟨hb, hc, rfl⟩, rfl⟩ (List.cons_ne_nil _ _) (by decide)
  have hfails : (p'.exec world node 0).result = .error (.host "c" ⟨"no more"⟩) := rfl
  have hthree : (p'.exec world node 0).state = 3 := rfl
  exact ⟨hleft, hright, htext, hfails, hresult.trans hfails, hstate.trans hthree⟩

end PredicateLang
