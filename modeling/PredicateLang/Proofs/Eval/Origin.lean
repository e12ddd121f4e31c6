import PredicateLang.Proofs.Eval.FreeNames
import PredicateLang.Proofs.Eval.Resolution
import PredicateLang.Proofs.Value.Reach

/-!
# Where a result comes from

Against a plain context an evaluation asks no host, and fails only where a value does not
convert, has no members, or has no remainder. Every frame holds a scalar or a value of the
context. A result is computed by an operator, written in the expression, or found in a map
of the context; no evaluation makes a map of its own.
-/

namespace PredicateLang

/-- The node that a result is the result of: paths are followed to their last part. -/
def Expr.deciding : Expr → Expr
  | .member _ path => path.deciding
  | .literal l => .literal l
  | .identifier name => .identifier name
  | .binary op left right => .binary op left right

/-- The kind of the results of an operator. -/
def BinaryOp.Yields : BinaryOp → Value → Prop
  | .or, v | .and, v | .relation _, v => ∃ t, v = .boolean t
  | .arithmetic .remainder, v => ∃ n, v = .integer n
  | .arithmetic .plus, v | .arithmetic .minus, v | .arithmetic .times, v
  | .arithmetic .divide, v => ∃ x, v = .number x

/-- What the value of a deciding node can be. A name yields nil, or what a map of the context
holds under it. -/
def Expr.Decides (context : Value) : Expr → Value → Prop
  | .literal l, v => v = l.value
  | .identifier name, v => v = .nil ∨ ∃ id entries,
      Value.Reached context (.map id entries) ∧ Entries.get? name entries = some v
  | .binary op _ _, v => op.Yields v
  | .member _ _, _ => False

/-- Whether the error comes from host code. -/
def EvalError.isOfHost : EvalError → Bool
  | .malformedAccessor _ _ | .host _ _ => true
  | .notBoolean _ | .notNumeric _ | .noSuchMember _ _ | .invalidRemainder _ _ => false

/-- A node is entered only with known values in the frames. -/
def Event.AmongKnown (context : Value) : Event → Prop
  | .entered _ frames _ => ∀ v ∈ frames.toList, Value.Known context v
  | .resolved _ | .underflow => True

variable {σ α β : Type} {context : Value}

theorem BinaryOp.Yields.isScalar {op : BinaryOp} {v : Value} (h : op.Yields v) :
    v.isScalar = true := by
  cases op with
  | arithmetic op => cases op <;> obtain ⟨_, rfl⟩ := h <;> rfl
  | _ => obtain ⟨_, rfl⟩ := h; rfl

theorem Expr.Decides.known {e : Expr} {v : Value} (h : e.Decides context v) :
    Value.Known context v := by
  cases e with
  | literal l =>
    cases h
    exact .inl (Value.isScalar_literal l)
  | identifier name =>
    obtain rfl | ⟨id, entries, hmap, hget⟩ := h
    · exact .inl rfl
    · exact .inr (hmap.entry hget)
  | member base path => cases h
  | binary op left right => exact .inl h.isScalar

theorem Relation.yields_apply {r : Relation} {a b v : Value} (h : r.apply a b = .ok v) :
    (BinaryOp.relation r).Yields v := by
  unfold Relation.apply at h
  split at h
  · cases h
    exact ⟨_, rfl⟩
  · rename_i test _
    cases hx : a.toNumber with
    | error e => rw [hx] at h; cases h
    | ok x =>
      cases hy : b.toNumber with
      | error e => rw [hx, hy] at h; cases h
      | ok y => rw [hx, hy] at h; cases h; exact ⟨_, rfl⟩

theorem Arithmetic.yields_apply {op : Arithmetic} {x y : Float} {v : Value}
    (h : op.apply x y = .ok v) : (BinaryOp.arithmetic op).Yields v := by
  cases op with
  | remainder =>
    simp only [Arithmetic.apply, Arithmetic.truncatedRemainder] at h
    split at h
    · cases h
    · cases h; exact ⟨_, rfl⟩
  | _ => cases h; exact ⟨_, rfl⟩

/-- An error that blames no name comes from no host. -/
theorem EvalError.isOfHost_of_nameless {e : EvalError} (h : e.blamed? = none) :
    e.isOfHost = false := by
  cases e with
  | malformedAccessor | host => cases h
  | _ => rfl

/-- Resolving a name against a known value asks nobody. -/
theorem resolve_of_known (world : World σ) {base : Value} (name : String) (state : σ)
    (hcontext : context.Plain) (hbase : Value.Known context base) :
    ∃ result, resolve world base name state = (result, state) ∧
      (∀ v, result = .ok v → (Expr.identifier name).Decides context v) ∧
      ∀ e, result = .error e → e.isOfHost = false := by
  cases base with
  | map id entries =>
    refine ⟨_, rfl, fun v hv => ?_, fun e he => by cases he⟩
    cases hget : Entries.get? name entries with
    | none =>
      rw [hget] at hv
      cases hv
      exact .inl rfl
    | some found =>
      rw [hget] at hv
      cases hv
      exact .inr ⟨id, entries, hbase.reached, hget⟩
  | host ref => exact absurd (hbase.plain hcontext) (Value.not_plain_host ref)
  | _ =>
    refine ⟨_, rfl, fun v hv => ?_, fun e he => ?_⟩
    · cases hv
    · cases he; rfl

namespace EvalM

/-- From these frames the step restores them, asks no host, and enters nodes among known values
only. Its result satisfies `P`, or it fails without a host being at fault. -/
def Settles (context : Value) (frames : Frames) (P : α → Prop) (x : EvalM σ α) : Prop :=
  ∀ m, m.frames = frames → (∀ event ∈ m.trace, event.AmongKnown context) →
    ((x m).2.frames = frames ∧ (x m).2.state = m.state ∧
      ∀ event ∈ (x m).2.trace, event.AmongKnown context) ∧
    (∀ a, (x m).1 = .ok a → P a) ∧ ∀ e, (x m).1 = .error e → e.isOfHost = false

namespace Settles

variable {frames : Frames} {P : α → Prop} {Q : β → Prop}

theorem lift {result : Except EvalError α} (h : Nameless result)
    (hP : ∀ a, result = .ok a → P a) : Settles context frames P (EvalM.lift result : EvalM σ α) :=
  fun _ hf ht => ⟨⟨hf, rfl, ht⟩, hP, fun e he => EvalError.isOfHost_of_nameless (h e he)⟩

theorem enter (address : Address) (e : Expr) (h : ∀ v ∈ frames.toList, Value.Known context v) :
    Settles context frames (fun _ => True) (EvalM.enter address e : EvalM σ Unit) := by
  intro m hf ht
  refine ⟨⟨hf, rfl, List.forall_mem_cons.mpr ⟨?_, ht⟩⟩, fun _ _ => trivial, fun e he => by cases he⟩
  rw [← hf] at h
  exact h

theorem ask (world : World σ) (name : String) (hcontext : context.Plain)
    (h : Value.Known context frames.current) :
    Settles context frames ((Expr.identifier name).Decides context) (EvalM.ask world name) := by
  intro m hf ht
  obtain ⟨result, hresolve, hok, herror⟩ := resolve_of_known world name m.state hcontext h
  have hask : EvalM.ask world name m = (result, m.record (.resolved name)) := by
    rw [EvalM.ask, hf, hresolve]
    rfl
  rw [hask]
  exact ⟨⟨hf, rfl, List.forall_mem_cons.mpr ⟨trivial, ht⟩⟩, hok, herror⟩

theorem bind {x : EvalM σ α} {k : α → EvalM σ β} (h : Settles context frames P x)
    (hk : ∀ a, P a → Settles context frames Q (k a)) : Settles context frames Q (x >>= k) := by
  intro m hf ht
  obtain ⟨⟨hf', hs', ht'⟩, hok, herror⟩ := h m hf ht
  rw [bind_apply]
  rcases hx : x m with ⟨e | a, m'⟩
  · rw [hx] at hf' hs' ht' herror
    refine ⟨⟨hf', hs', ht'⟩, fun b hb => ?_, fun e' he => ?_⟩
    · cases hb
    · cases he
      exact herror e rfl
  · rw [hx] at hf' hs' ht' hok
    obtain ⟨⟨hf'', hs'', ht''⟩, hresult⟩ := hk a (hok a rfl) m' hf' ht'
    exact ⟨⟨hf'', hs''.trans hs', ht''⟩, hresult⟩

theorem inFrame {x : EvalM σ α} {base : Value} (h : Settles context (frames.push base) P x) :
    Settles context frames P (EvalM.inFrame base x) := by
  intro m hf ht
  obtain ⟨⟨hf', hs', ht'⟩, hresult⟩ := h { m with frames := m.frames.push base } (by rw [hf]) ht
  have hleave : (x { m with frames := m.frames.push base }).2.leave =
      { (x { m with frames := m.frames.push base }).2 with frames } := by
    rw [Interpreter.leave, hf', Frames.pop?_push]
  rw [EvalM.inFrame, hleave]
  exact ⟨⟨rfl, hs', ht'⟩, hresult⟩

/-- Operators convert what they are given and may fail at it. Their results are new scalars. -/
theorem combine {x y : EvalM σ Value} {P Q : Value → Prop} (op : BinaryOp)
    (hx : Settles context frames P x) (hy : Settles context frames Q y) :
    Settles context frames op.Yields (EvalM.combine op x y) := by
  have htruth (a : Value) : Settles context frames (fun _ => True)
      (EvalM.lift a.toTruth : EvalM σ Bool) := .lift (.toTruth a) fun _ _ => trivial
  have hnumber (a : Value) : Settles context frames (fun _ => True)
      (EvalM.lift a.toNumber : EvalM σ Float) := .lift (.toNumber a) fun _ _ => trivial
  have hboolean (t : Bool) : Settles context frames (fun v => ∃ t, v = .boolean t)
      (pure (.boolean t) : EvalM σ Value) := .lift (.ok _) fun v hv => by cases hv; exact ⟨t, rfl⟩
  have hright : Settles context frames (fun v => ∃ t, v = .boolean t)
      (do return .boolean (← EvalM.lift (← y).toTruth) : EvalM σ Value) :=
    hy.bind fun b _ => (htruth b).bind fun t _ => hboolean t
  cases op with
  | or =>
    refine hx.bind fun a _ => (htruth a).bind fun t _ => ?_
    cases t with
    | true => exact hboolean true
    | false => exact hright
  | and =>
    refine hx.bind fun a _ => (htruth a).bind fun t _ => ?_
    cases t with
    | true => exact hright
    | false => exact hboolean false
  | relation r =>
    refine hx.bind fun a _ => hy.bind fun b _ => .lift (.relation r a b) fun v hv => ?_
    exact Relation.yields_apply hv
  | arithmetic op =>
    refine hx.bind fun a _ => (hnumber a).bind fun u _ => hy.bind fun b _ =>
      (hnumber b).bind fun w _ => .lift (.arithmetic op u w) fun v hv => ?_
    exact Arithmetic.yields_apply hv

end Settles

/-- From known frames, evaluation settles on a value that its deciding node can have. -/
theorem evaluateAt_settles (world : World σ) (hcontext : context.Plain) (e : Expr)
    (address : Address) (frames : Frames) (h : ∀ v ∈ frames.toList, Value.Known context v) :
    Settles context frames (e.deciding.Decides context) (evaluateAt world e address) := by
  induction e generalizing address frames with
  | literal l =>
    exact (Settles.enter _ _ h).bind fun _ _ => .lift (.ok _) fun v hv => by cases hv; rfl
  | identifier name =>
    refine (Settles.enter _ _ h).bind fun _ _ => .ask world name hcontext (h _ ?_)
    exact frames.current_mem_toList
  | member base path ihb ihp =>
    refine (Settles.enter _ _ h).bind fun _ _ => (ihb _ _ h).bind fun v hv => .inFrame ?_
    -- The value of the base is known, and so is what is found in it.
    refine ihp _ _ fun w hw => ?_
    rcases Frames.mem_toList_push.mp hw with rfl | hw
    · exact hv.known
    · exact h w hw
  | binary op left right ihl ihr =>
    exact (Settles.enter _ _ h).bind fun _ _ => .combine op (ihl _ _ h) (ihr _ _ h)

end EvalM

/-- Against a plain context the host is asked nothing, whatever it could answer, and no error comes
from it. A value is one that the deciding node of the tree can have; a map is a map of the context
itself. So is every map that is pushed as a frame on the way. Contexts from JSON are plain. -/
theorem run_of_plain (world : World σ) (e : Expr) (state : σ) (h : context.Plain) :
    let run := ((Interpreter.start context state).run world e).1
    let watched := ((Interpreter.start context (state, [])).run world.watched e).1
    (run.state = state ∧ watched.result = run.result ∧ watched.state = (state, [])) ∧
      (∀ fault, run.result = .error fault → fault.isOfHost = false) ∧
      (∀ v, run.result = .ok v → e.deciding.Decides context v) ∧
      (∀ id entries, run.result = .ok (.map id entries) → Value.Reached context (.map id entries)) ∧
      (∀ event ∈ run.trace, event.AmongKnown context) ∧
      ∀ (id : Identity) (j : Json), (j.toValue id).Plain := by
  intro run watched
  have hroot : ∀ v ∈ (Frames.start context).toList, Value.Known context v := by
    intro v hv
    obtain rfl := List.mem_singleton.mp hv
    exact .inr .context
  obtain ⟨⟨-, hstate, hevents⟩, hok, herror⟩ :=
    EvalM.evaluateAt_settles world h e [] (.start context) hroot (.start context state) rfl
      fun _ hnil => by cases hnil
  obtain ⟨⟨-, hcalls, -⟩, -⟩ :=
    EvalM.evaluateAt_settles world.watched h e [] (.start context) hroot
      (.start context (state, [])) rfl fun _ hnil => by cases hnil
  obtain ⟨hwatched, -⟩ := Interpreter.run_start_watched world e context state
  refine ⟨⟨hstate, hwatched, hcalls⟩, herror, hok, fun id entries hmap => ?_, ?_,
    fun id j => Json.plain_toValue id j⟩
  · exact (hok _ hmap).known.reached
  · exact fun event hevent => hevents event (List.mem_reverse.mp hevent)

/-- The tags of a user are the very map that the document of the user became. -/
theorem run_of_plain_tags :
    let tags := Json.array [.string "a"]
    let document := Json.object [("user", .object [("tags", tags), ("name", .null)])]
    let context := document.toValue ⟨0, []⟩
    let e := Expr.member (.identifier "user") (.identifier "tags")
    let run := ((Interpreter.start context ()).run (fun ref => .bare ref.typeName) e).1
    context.Plain ∧ run.result = .ok (tags.toValue ⟨0, ["tags", "user"]⟩) ∧
      Value.Reached context (tags.toValue ⟨0, ["tags", "user"]⟩) := by
  intro tags document context e run
  have hplain : context.Plain := Json.plain_toValue _ document
  have hresult : run.result = .ok (tags.toValue ⟨0, ["tags", "user"]⟩) := rfl
  obtain ⟨-, -, -, hmap, -⟩ := run_of_plain (fun ref => .bare ref.typeName) e () hplain
  exact ⟨hplain, hresult, hmap _ _ hresult⟩

end PredicateLang
