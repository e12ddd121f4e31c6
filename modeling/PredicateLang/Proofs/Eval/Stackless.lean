import PredicateLang.Proofs.Eval.Operand
import PredicateLang.Proofs.Host.Calls

/-!
# Evaluation without frames

The frames of an interpreter are a means to an end. An evaluator that carries
one base value and nothing else has the same result, asks the host the same
questions in the same order, and needs no frames. Every evaluation, a failing
one included, leaves the frames as it found them and never pops the root frame,
so an interpreter can be used again as if it were new.
-/

namespace PredicateLang

variable {σ α β : Type}

/-- A step that may ask the host and may fail. -/
abbrev AskM (σ : Type) := ExceptT EvalError (StateM σ)

namespace AskM

/-- A result that needs no host. -/
def lift (result : Except EvalError α) : AskM σ α := fun s =>
  (result, s)

/-- Resolves a name against a base value. -/
def ask (world : World σ) (base : Value) (name : String) : AskM σ Value :=
  resolve world base name

/-- The first failure ends a sequence of steps. -/
theorem bind_apply (x : AskM σ α) (f : α → AskM σ β) (s : σ) :
    (x >>= f) s =
      match x s with
      | (.ok a, s) => f a s
      | (.error e, s) => (.error e, s) := by
  change ExceptT.bind x f s = _
  simp only [ExceptT.bind, ExceptT.mk, bind, StateT.bind, ExceptT.bindCont]
  rcases x s with ⟨_ | _, _⟩ <;> rfl

theorem lift_bind_lift (result : Except EvalError α) (f : α → Except EvalError β) :
    (lift result >>= fun a => lift (f a) : AskM σ β) = lift (result >>= f) := by
  cases result <;> rfl

/-- The steps `x` and `y` have the same result and the same effect, except that `x` records what
it asks. -/
abbrev Watches (x : AskM (σ × List HostCall) α) (y : AskM σ α) : Prop :=
  PredicateLang.Watches Eq x y

theorem Watches.lift (result : Except EvalError α) :
    AskM.Watches (AskM.lift result : AskM (σ × List HostCall) α) (AskM.lift result) :=
  .pure rfl

theorem Watches.bind {x : AskM (σ × List HostCall) α} {y : AskM σ α}
    {k : α → AskM (σ × List HostCall) β} {l : α → AskM σ β} (h : AskM.Watches x y)
    (hk : ∀ a, AskM.Watches (k a) (l a)) : AskM.Watches (x >>= k) (y >>= l) := by
  intro s calls
  obtain ⟨hr, hs⟩ := h s calls
  rw [bind_apply, bind_apply]
  rcases hx : x (s, calls) with ⟨r, s₁, calls₁⟩
  rcases hy : y s with ⟨r', s₂⟩
  rw [hx, hy] at hr hs
  cases hr
  cases hs
  cases r with
  | error e => exact ⟨rfl, rfl⟩
  | ok a => exact hk a s₁ calls₁

end AskM

/-- Evaluates an expression against one base value. -/
def evaluateAgainst (world : World σ) : Expr → Value → AskM σ Value
  | .literal l, _ => pure l.value
  | .identifier name, base => AskM.ask world base name
  | .member left right, base => do
    let v ← evaluateAgainst world left base
    evaluateAgainst world right v
  | .binary .or left right, base => do
    let a ← evaluateAgainst world left base
    if ← AskM.lift a.toTruth then pure (.boolean true)
    else
      let b ← evaluateAgainst world right base
      return .boolean (← AskM.lift b.toTruth)
  | .binary .and left right, base => do
    let a ← evaluateAgainst world left base
    if ← AskM.lift a.toTruth then
      let b ← evaluateAgainst world right base
      return .boolean (← AskM.lift b.toTruth)
    else pure (.boolean false)
  | .binary (.relation r) left right, base => do
    let a ← evaluateAgainst world left base
    let b ← evaluateAgainst world right base
    AskM.lift (r.apply a b)
  | .binary (.arithmetic op) left right, base => do
    let a ← evaluateAgainst world left base
    let x ← AskM.lift a.toNumber
    let b ← evaluateAgainst world right base
    let y ← AskM.lift b.toNumber
    AskM.lift (op.apply x y)

/-- The operators are evaluated in the same steps as with frames. -/
theorem evaluateAgainst_binary (world : World σ) (op : BinaryOp) (left right : Expr)
    (base : Value) :
    evaluateAgainst world (.binary op left right) base = (do
      let a ← evaluateAgainst world left base
      match op.afterLeft a with
      | .settled result => AskM.lift result
      | .pending finish =>
        let b ← evaluateAgainst world right base
        AskM.lift (finish b)) := by
  have hright : (do
      let b ← evaluateAgainst world right base
      return Value.boolean (← AskM.lift b.toTruth)) = (do
        let b ← evaluateAgainst world right base
        AskM.lift (b.toTruth.map .boolean)) := by
    refine bind_congr fun b => ?_
    cases b.toTruth <;> rfl
  cases op with
  | or =>
    refine bind_congr fun a => ?_
    simp only [BinaryOp.afterLeft]
    rcases a.toTruth with e | _ | _
    · rfl
    · exact hright
    · rfl
  | and =>
    refine bind_congr fun a => ?_
    simp only [BinaryOp.afterLeft]
    rcases a.toTruth with e | _ | _
    · rfl
    · rfl
    · exact hright
  | relation r => rfl
  | arithmetic op =>
    refine bind_congr fun a => ?_
    simp only [BinaryOp.afterLeft]
    rcases a.toNumber with e | x
    · rfl
    · exact bind_congr fun (b : Value) => AskM.lift_bind_lift b.toNumber (op.apply x)

/-- Watching changes no evaluation. -/
theorem evaluateAgainst_watched (world : World σ) (e : Expr) (base : Value) :
    AskM.Watches (evaluateAgainst world.watched e base) (evaluateAgainst world e base) := by
  induction e generalizing base with
  | literal l => exact .lift _
  | identifier name => exact watches_resolve world base name
  | member left right ihl ihr => exact (ihl base).bind fun v => ihr v
  | binary op left right ihl ihr =>
    rw [evaluateAgainst_binary, evaluateAgainst_binary]
    refine (ihl base).bind fun a => ?_
    cases op.afterLeft a with
    | settled result => exact .lift _
    | pending finish => exact (ihr base).bind fun b => .lift _

namespace EvalM

/-- From every interpreter, `x` does to the host what `y` does to it for the current frame, with
the same result. It restores the frames and does not pop the root frame. -/
def Carries (x : EvalM σ α) (y : Value → AskM σ α) : Prop :=
  ∀ m, ∃ trace, x m =
      ((y m.frames.current m.state).1,
        { m with state := (y m.frames.current m.state).2, trace }) ∧
    (.underflow ∈ trace → .underflow ∈ m.trace)

namespace Carries

theorem pure (a : α) : Carries (pure a : EvalM σ α) fun _ => pure a :=
  fun m => ⟨m.trace, rfl, id⟩

theorem lift (result : Except EvalError α) :
    Carries (EvalM.lift result : EvalM σ α) fun _ => AskM.lift result :=
  fun m => ⟨m.trace, rfl, id⟩

theorem ask (world : World σ) (name : String) :
    Carries (EvalM.ask world name) fun base => AskM.ask world base name := by
  intro m
  refine ⟨.resolved name :: m.trace, rfl, ?_⟩
  intro h
  rcases List.mem_cons.mp h with h | h
  · cases h
  · exact h

theorem bind {x : EvalM σ α} {y : Value → AskM σ α} {k : α → EvalM σ β}
    {l : α → Value → AskM σ β} (h : Carries x y) (hk : ∀ a, Carries (k a) (l a)) :
    Carries (x >>= k) fun base => y base >>= fun a => l a base := by
  intro m
  obtain ⟨trace, hx, htrace⟩ := h m
  rw [bind_apply, hx]
  dsimp only
  rw [AskM.bind_apply]
  rcases y m.frames.current m.state with ⟨e | a, s⟩
  · exact ⟨trace, rfl, htrace⟩
  · obtain ⟨trace', hk', htrace'⟩ := hk a { m with state := s, trace }
    exact ⟨trace', hk', htrace ∘ htrace'⟩

/-- The frame that a member access pushes is the one that it pops. -/
theorem inFrame {x : EvalM σ α} {y : Value → AskM σ α} (base : Value) (h : Carries x y) :
    Carries (EvalM.inFrame base x) fun _ => y base := by
  intro m
  obtain ⟨trace, hx, htrace⟩ := h { m with frames := m.frames.push base }
  refine ⟨trace, ?_, htrace⟩
  rw [EvalM.inFrame, hx]
  rfl

theorem enter {x : EvalM σ α} {y : Value → AskM σ α} (address : Address) (e : Expr)
    (h : Carries x y) : Carries (do EvalM.enter address e; x) y := by
  intro m
  obtain ⟨trace, hx, htrace⟩ := h (m.record (.entered address m.frames e))
  refine ⟨trace, hx, fun hmem => ?_⟩
  rcases List.mem_cons.mp (htrace hmem) with h | h
  · cases h
  · exact h

end Carries

/-- Evaluation needs the current frame and no other. -/
theorem evaluateAt_carries (world : World σ) (e : Expr) (address : Address) :
    Carries (evaluateAt world e address) (evaluateAgainst world e) := by
  induction e generalizing address with
  | literal l => exact .enter _ _ (.pure _)
  | identifier name => exact .enter _ _ (.ask world name)
  | member base path ihb ihp => exact .enter _ _ ((ihb _).bind fun v => .inFrame v (ihp _))
  | binary op left right ihl ihr =>
    refine .enter _ _ ?_
    rw [combine_eq, funext (evaluateAgainst_binary world op left right)]
    refine (ihl _).bind fun a => ?_
    cases op.afterLeft a with
    | settled result => exact .lift _
    | pending finish => exact (ihr _).bind fun b => .lift _

end EvalM

namespace Interpreter

/-- Evaluates expressions one after another, going on where one fails. -/
def evaluateAll (world : World σ) :
    List Expr → Interpreter σ → List (Except EvalError Value) × Interpreter σ
  | [], m => ([], m)
  | e :: rest, m =>
    let r := m.evaluate world e
    let results := evaluateAll world rest r.2
    (r.1 :: results.1, results.2)

/-- Evaluates expressions one after another, each with an interpreter of its own. -/
def evaluateAfresh (world : World σ) (context : Value) :
    List Expr → σ → List (Except EvalError Value) × σ
  | [], s => ([], s)
  | e :: rest, s =>
    let r := (start context s).evaluate world e
    let results := evaluateAfresh world context rest r.2.state
    (r.1 :: results.1, results.2)

theorem evaluate_eq (world : World σ) (e : Expr) (m : Interpreter σ) :
    ∃ trace, m.evaluate world e =
        ((evaluateAgainst world e m.frames.current m.state).1,
          ⟨m.frames, (evaluateAgainst world e m.frames.current m.state).2, trace⟩) ∧
      .underflow ∉ trace := by
  obtain ⟨trace, h, htrace⟩ := EvalM.evaluateAt_carries world e [] { m with trace := [] }
  exact ⟨trace, h, fun hmem => List.not_mem_nil (htrace hmem)⟩

/-- An interpreter that has been used is as good as a new one over its current frame. -/
theorem evaluateAll_eq (world : World σ) (es : List Expr) (m : Interpreter σ) :
    ∃ trace, m.evaluateAll world es =
      ((evaluateAfresh world m.frames.current es m.state).1,
        ⟨m.frames, (evaluateAfresh world m.frames.current es m.state).2, trace⟩) := by
  induction es generalizing m with
  | nil => exact ⟨m.trace, rfl⟩
  | cons e rest ih =>
    obtain ⟨trace, he, -⟩ := evaluate_eq world e m
    obtain ⟨fresh, hfresh, -⟩ := evaluate_eq world e (start m.frames.current m.state)
    obtain ⟨trace', hrest⟩ := ih (m.evaluate world e).2
    refine ⟨trace', ?_⟩
    rw [evaluateAll, evaluateAfresh, hrest, hfresh, he]
    rfl

/-- From any frames and in any world, evaluation has the result of the evaluator that knows the
current frame only and leaves the host in the same state. Seen through a watched world, both
ask the host the same questions in the same order. The frames are as before, the root frame was
never to be removed, and any number of evaluations in a row have the results that interpreters
of their own would have. -/
theorem evaluate_refines_evaluateAgainst (world : World σ) (m : Interpreter σ) :
    (∀ e, ((m.evaluate world e).1, (m.evaluate world e).2.state) =
      evaluateAgainst world e m.frames.current m.state) ∧
    (∀ e calls, ∃ calls',
      let r := (⟨m.frames, (m.state, calls), m.trace⟩ : Interpreter _).evaluate world.watched e
      r.1 = (m.evaluate world e).1 ∧ r.2.state = ((m.evaluate world e).2.state, calls') ∧
        (evaluateAgainst world.watched e m.frames.current (m.state, calls)).2.2 = calls') ∧
    (∀ e, (m.evaluate world e).2.frames = m.frames ∧
      .underflow ∉ (m.evaluate world e).2.trace) ∧
    (∀ es, (m.evaluateAll world es).2.frames = m.frames ∧
      ((m.evaluateAll world es).1, (m.evaluateAll world es).2.state) =
        evaluateAfresh world m.frames.current es m.state) := by
  refine ⟨fun e => ?_, fun e calls => ?_, fun e => ?_, fun es => ?_⟩
  · obtain ⟨trace, h, -⟩ := evaluate_eq world e m
    rw [h]
    rfl
  · obtain ⟨trace, h, -⟩ := evaluate_eq world e m
    obtain ⟨trace', hw, -⟩ :=
      evaluate_eq world.watched e ⟨m.frames, (m.state, calls), m.trace⟩
    obtain ⟨hresult, hstate⟩ := evaluateAgainst_watched world e m.frames.current m.state calls
    refine ⟨_, ?_, ?_, rfl⟩
    · rw [hw, h]
      exact hresult
    · rw [hw, h]
      exact Prod.ext hstate rfl
  · obtain ⟨trace, h, htrace⟩ := evaluate_eq world e m
    rw [h]
    exact ⟨rfl, htrace⟩
  · obtain ⟨trace, h⟩ := evaluateAll_eq world es m
    rw [h]
    exact ⟨rfl, rfl⟩

end Interpreter
end PredicateLang
