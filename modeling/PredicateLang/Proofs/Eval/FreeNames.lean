import PredicateLang.Program
import PredicateLang.Proofs.Eval.Stackless
import PredicateLang.Proofs.Eval.Trace

/-!
# Free names

A name is free in a tree where it is no part of a path, since paths are evaluated
against the members that they lead through. Two contexts that agree on the free names
of a tree cannot be told apart by evaluating it, neither by the result nor by what the
host is asked.
-/

namespace PredicateLang

/-- The names of a tree outside its paths, as often as they occur. -/
def Expr.freeNames : Expr → List String
  | .literal _ => []
  | .identifier name => [name]
  | .member base _ => base.freeNames
  | .binary _ left right => left.freeNames ++ right.freeNames

/-- The free names of the tree at an address, each with the address of its node. -/
def Expr.freeAt : Expr → Address → List (Address × String)
  | .literal _, _ => []
  | .identifier name, address => [(address, name)]
  | .member base _, address => base.freeAt (.left :: address)
  | .binary _ left right, address =>
    left.freeAt (.left :: address) ++ right.freeAt (.right :: address)

theorem Expr.map_snd_freeAt (e : Expr) (address : Address) :
    (e.freeAt address).map Prod.snd = e.freeNames := by
  induction e generalizing address with
  | literal l => rfl
  | identifier name => rfl
  | member base path ihb ihp => exact ihb _
  | binary op left right ihl ihr =>
    rw [freeAt, freeNames, List.map_append, ihl, ihr]

/-- If the event is the evaluation of a name against the root frame, `places` has the name and
its address. -/
def Event.AtRootAmong (places : List (Address × String)) : Event → Prop
  | .entered address frames (.identifier name) => frames.inner = [] → (address, name) ∈ places
  | .entered _ _ _ | .resolved _ | .underflow => True

variable {σ : Type}

/-- What the free names of a tree are resolved to is all that its value depends on. -/
theorem evaluateAgainst_congr (world : World σ) {e : Expr} {base base' : Value}
    (h : ∀ name ∈ e.freeNames, resolve world base name = resolve world base' name) :
    evaluateAgainst world e base = evaluateAgainst world e base' := by
  induction e with
  | literal l => rfl
  | identifier name => exact h name (List.mem_singleton_self name)
  | member left right ihl ihr =>
    -- The path is evaluated against the value of its base, which is the same by then.
    have hleft := ihl h
    rw [evaluateAgainst, evaluateAgainst, hleft]
  | binary op left right ihl ihr =>
    have hleft := ihl fun name hname => h name (List.mem_append_left _ hname)
    have hright := ihr fun name hname => h name (List.mem_append_right _ hname)
    rw [evaluateAgainst_binary, evaluateAgainst_binary, hleft, hright]

/-- Names are evaluated against the root frame only where they are free. -/
theorem EvalM.evaluateAt_atRootAmong (world : World σ) (places : List (Address × String))
    (e : Expr) (address : Address) (frames : Frames)
    (h : frames.inner = [] → ∀ place ∈ e.freeAt address, place ∈ places) :
    Traces frames (Event.AtRootAmong places) (evaluateAt world e address) := by
  induction e generalizing address frames with
  | literal l => exact (Traces.enter _ _ trivial).bind fun _ => .lift _
  | identifier name =>
    have hfree : Event.AtRootAmong places (.entered address frames (.identifier name)) :=
      fun hroot => h hroot (address, name) (List.mem_singleton_self _)
    exact (Traces.enter _ _ hfree).bind fun _ => .ask world name trivial
  | member base path ihb ihp =>
    refine (Traces.enter _ _ trivial).bind fun _ => (ihb _ _ h).bind fun v => .inFrame ?_
    -- A path starts from a frame above the root, where any name may be resolved.
    refine ihp _ _ fun hroot => ?_
    cases hroot
  | binary op left right ihl ihr =>
    refine (Traces.enter _ _ trivial).bind fun _ => .combine op (ihl _ _ ?_) (ihr _ _ ?_)
    · exact fun hroot place hplace => h hroot place (List.mem_append_left _ hplace)
    · exact fun hroot place hplace => h hroot place (List.mem_append_right _ hplace)

namespace Interpreter

theorem run_start_eq (world : World σ) (e : Expr) (context : Value) (state : σ) :
    let run := ((start context state).run world e).1
    run.result = (evaluateAgainst world e context state).1 ∧
      run.state = (evaluateAgainst world e context state).2 := by
  obtain ⟨trace, heq, -⟩ := evaluate_eq world e (start context state)
  have hresult := congrArg Prod.fst heq
  have hstate := congrArg (fun r => r.2.state) heq
  exact ⟨hresult, hstate⟩

theorem run_start_congr (world : World σ) {e : Expr} {context context' : Value} (state : σ)
    (h : ∀ name ∈ e.freeNames, resolve world context name = resolve world context' name) :
    let run := ((start context state).run world e).1
    let run' := ((start context' state).run world e).1
    run.result = run'.result ∧ run.state = run'.state := by
  obtain ⟨hresult, hstate⟩ := run_start_eq world e context state
  obtain ⟨hresult', hstate'⟩ := run_start_eq world e context' state
  rw [← evaluateAgainst_congr world h] at hresult' hstate'
  exact ⟨hresult.trans hresult'.symm, hstate.trans hstate'.symm⟩

/-- Watching changes no run. -/
theorem run_start_watched (world : World σ) (e : Expr) (context : Value) (state : σ) :
    let run := ((start context state).run world e).1
    let watched := ((start context (state, [])).run world.watched e).1
    watched.result = run.result ∧ watched.state.1 = run.state := by
  obtain ⟨hresult, hstate⟩ := run_start_eq world e context state
  obtain ⟨hwatched, hcalls⟩ := run_start_eq world.watched e context (state, [])
  obtain ⟨hsame, hleft⟩ := evaluateAgainst_watched world e context state []
  constructor
  · exact hwatched.trans (hsame.trans hresult.symm)
  · rw [hcalls, hleft, hstate]

end Interpreter

/-- Two maps that hold the same under each free name of a tree, or both nothing, give it the same
result and leave the host in the same state. Watched, they ask the host the same questions in the
same order. Where a name is evaluated against the map itself, it is free. -/
theorem run_eq_of_freeNames (world : World σ) (e : Expr) (state : σ) (id id' : Identity)
    (entries entries' : Entries Value)
    (h : ∀ name ∈ e.freeNames, Entries.get? name entries = Entries.get? name entries') :
    let run := ((Interpreter.start (.map id entries) state).run world e).1
    let run' := ((Interpreter.start (.map id' entries') state).run world e).1
    let watched := ((Interpreter.start (.map id entries) (state, [])).run world.watched e).1
    let watched' := ((Interpreter.start (.map id' entries') (state, [])).run world.watched e).1
    (run.result = run'.result ∧ run.state = run'.state) ∧
      (watched.result = run.result ∧ watched.state.1 = run.state) ∧
      (watched.result = watched'.result ∧ watched.state = watched'.state) ∧
      (e.freeAt []).map Prod.snd = e.freeNames ∧
      ∀ event ∈ run.trace, event.AtRootAmong (e.freeAt []) := by
  have hagree {τ : Type} (w : World τ) : ∀ name ∈ e.freeNames,
      resolve w (.map id entries) name = resolve w (.map id' entries') name := by
    intro name hname
    simp only [resolve, h name hname]
  refine ⟨Interpreter.run_start_congr world state (hagree world),
    Interpreter.run_start_watched world e (.map id entries) state,
    Interpreter.run_start_congr world.watched (state, []) (hagree world.watched),
    e.map_snd_freeAt [], ?_⟩
  intro event hevent
  have htraces := EvalM.evaluateAt_atRootAmong world (e.freeAt []) e []
    (.start (.map id entries)) fun _ _ hplace => hplace
  obtain ⟨_, hevents⟩ := htraces (.start (.map id entries) state) rfl fun _ hnil => by cases hnil
  exact hevents event (List.mem_reverse.mp hevent)

/-- An object that counts the questions is asked twice, and neither `n` is the one of the map. -/
theorem run_eq_of_freeNames_counter :
    let counter : World Nat := fun _ => .resolver fun _ n => (.ok (.integer (.ofNat n)), n + 1)
    let x := Value.host ⟨7, "counter"⟩
    let e := Expr.binary (.relation .equal) (.member (.identifier "x") (.identifier "n"))
      (.member (.identifier "x") (.identifier "n"))
    let run := ((Interpreter.start (.map ⟨0, []⟩ [("n", .nil), ("x", x)]) 0).run counter e).1
    let run' := ((Interpreter.start (.map ⟨1, []⟩ [("x", x), ("n", x)]) 0).run counter e).1
    e.freeNames = ["x", "x"] ∧ run.result = .ok (.boolean false) ∧
      run'.result = .ok (.boolean false) ∧ run'.state = 2 := by
  intro counter x e run run'
  have hx : ∀ name ∈ e.freeNames, Entries.get? name [("n", .nil), ("x", x)] =
      Entries.get? name [("x", x), ("n", x)] := by
    intro name hname
    obtain rfl : name = "x" := by simpa [e, Expr.freeNames] using hname
    rfl
  obtain ⟨⟨hresult, hstate⟩, -⟩ := run_eq_of_freeNames counter e 0 ⟨0, []⟩ ⟨1, []⟩ _ _ hx
  have hfalse : run.result = .ok (.boolean false) := rfl
  have htwo : run.state = 2 := rfl
  exact ⟨rfl, hfalse, hresult.symm.trans hfalse, hstate.symm.trans htwo⟩

end PredicateLang
