import PredicateLang.Program

/-!
# The names that an evaluation resolves

An evaluation resolves the names of a tree from left to right, each occurrence at most
once. Only the logical operators leave some out; without them all are resolved, or all
up to the one at which the evaluation fails. An error of a resolution blames the name
that was resolved last, since nothing is resolved after a failure.
-/

namespace PredicateLang

/-- The names of a tree from left to right, as often as they occur. -/
def Expr.names : Expr → List String
  | .literal _ => []
  | .identifier name => [name]
  | .member base path => base.names ++ path.names
  | .binary _ left right => left.names ++ right.names

def BinaryOp.isLogical : BinaryOp → Bool
  | .or | .and => true
  | .relation _ | .arithmetic _ => false

/-- The name that was resolved, if the event is a resolution. -/
def Event.resolved? : Event → Option String
  | .resolved name => some name
  | .entered _ _ _ | .underflow => none

/-- The names that were resolved, in the order of the trace. -/
def resolvedNames (trace : List Event) : List String :=
  trace.filterMap Event.resolved?

/-- The name that an error of a resolution blames. -/
def EvalError.blamed? : EvalError → Option String
  | .noSuchMember name _ | .malformedAccessor name _ | .host name _ => some name
  | .notBoolean _ | .notNumeric _ | .invalidRemainder _ _ => none

variable {σ α β : Type}

theorem Returned.blamed?_unpack {name : String} {returned : Returned} {e : EvalError}
    (h : returned.unpack name = .error e) : e.blamed? = some name := by
  unfold Returned.unpack at h
  split at h
  all_goals cases h
  all_goals rfl

/-- If the step fails, it blames the name. -/
def Blames (name : String) (step : StateM σ (Except EvalError α)) : Prop :=
  ∀ s e, (step s).1 = .error e → e.blamed? = some name

namespace Blames

variable {name : String}

theorem pure {result : Except EvalError α} (h : ∀ e, result = .error e → e.blamed? = some name) :
    Blames name (pure result : StateM σ (Except EvalError α)) :=
  fun _ => h

theorem bind {x : StateM σ β} {k : β → StateM σ (Except EvalError α)}
    (h : ∀ b, Blames name (k b)) : Blames name (x >>= k) :=
  fun s => h (x s).1 (x s).2

end Blames

theorem Host.resolve_blames (host : Host σ) (name : String) : Blames name (host.resolve name) := by
  refine .bind fun lookup? => ?_
  cases lookup? with
  | some lookup =>
    refine .bind fun answer => .pure fun e he => ?_
    cases answer with
    | ok v => cases he
    | error cause => cases he; rfl
  | none =>
    refine .bind fun entries? => ?_
    cases entries? with
    | some entries => exact .pure fun e he => by cases he
    | none =>
      refine .bind fun returned? => ?_
      cases returned? with
      | some returned => exact .pure fun e he => Returned.blamed?_unpack he
      | none =>
        refine .bind fun field? => ?_
        cases field? with
        | some v => exact .pure fun e he => by cases he
        | none => exact .pure fun e he => by cases he; rfl

theorem resolve_blames (world : World σ) (base : Value) (name : String) :
    Blames name (resolve world base name) := by
  cases base with
  | map _ entries => exact .pure fun e he => by cases he
  | host ref => exact (world ref).resolve_blames name
  | _ => exact .pure fun e he => by cases he; rfl

/-- The errors of conversions and operators blame no name. -/
def Nameless (result : Except EvalError α) : Prop :=
  ∀ e, result = .error e → e.blamed? = none

namespace Nameless

theorem ok (a : α) : Nameless (.ok a) :=
  fun _ he => by cases he

theorem toTruth (v : Value) : Nameless v.toTruth := by
  intro e he
  unfold Value.toTruth at he
  split at he
  all_goals cases he
  rfl

theorem toNumber (v : Value) : Nameless v.toNumber := by
  intro e he
  unfold Value.toNumber at he
  split at he
  all_goals cases he
  rfl

theorem bind {x : Except EvalError α} {k : α → Except EvalError β} (h : Nameless x)
    (hk : ∀ a, Nameless (k a)) : Nameless (x >>= k) := by
  cases x with
  | error e => exact fun e' he => h e' (by cases he; rfl)
  | ok a => exact hk a

theorem relation (r : Relation) (a b : Value) : Nameless (r.apply a b) := by
  unfold Relation.apply
  cases r.test? with
  | none => exact ok _
  | some test => exact (toNumber a).bind fun x => (toNumber b).bind fun y => ok _

theorem arithmetic (op : Arithmetic) (x y : Float) : Nameless (op.apply x y) := by
  cases op with
  | remainder =>
    intro e he
    simp only [Arithmetic.apply, Arithmetic.truncatedRemainder] at he
    split at he
    · cases he; rfl
    · cases he
  | _ => exact ok _

end Nameless

namespace EvalM

/-- The step resolves `asked`, names among `names` in their order. If `complete` holds, it resolves
all of them unless it fails, and then the first ones. An error that blames a name blames the last
one that was resolved. -/
structure Outcome (names : List String) (complete : Prop) (asked : List String)
    (result : Except EvalError α) : Prop where
  sublist : asked.Sublist names
  all : complete → ∀ a, result = .ok a → asked = names
  initial : complete → ∀ e, result = .error e → asked <+: names
  blamed : ∀ e name, result = .error e → e.blamed? = some name → asked.getLast? = some name

def Resolves (names : List String) (complete : Prop) (x : EvalM σ α) : Prop :=
  ∀ m, ∃ events, (x m).2.trace = events ++ m.trace ∧
    Outcome names complete (resolvedNames events.reverse) (x m).1

namespace Resolves

variable {names names' : List String} {complete : Prop}

theorem lift {result : Except EvalError α} (h : Nameless result) :
    Resolves [] complete (EvalM.lift result : EvalM σ α) := by
  intro m
  refine ⟨[], rfl, .slnil, fun _ _ _ => rfl, fun _ _ _ => List.prefix_rfl, ?_⟩
  intro e name he hname
  rw [h e he] at hname
  cases hname

theorem ask (world : World σ) (name : String) :
    Resolves [name] complete (EvalM.ask world name) := by
  intro m
  refine ⟨[.resolved name], rfl, .refl _, fun _ _ _ => rfl, fun _ _ _ => List.prefix_rfl, ?_⟩
  intro e name' he hname
  have hblamed := resolve_blames world m.frames.current name m.state e he
  exact hblamed.symm.trans hname

theorem enter (address : Address) (e : Expr) :
    Resolves [] complete (EvalM.enter address e : EvalM σ Unit) := by
  intro m
  refine ⟨[.entered address m.frames e], rfl, .slnil, fun _ _ _ => rfl,
    fun _ _ _ => List.prefix_rfl, ?_⟩
  intro e name he
  cases he

theorem bind {x : EvalM σ α} {k : α → EvalM σ β} (h : Resolves names complete x)
    (hk : ∀ a, Resolves names' complete (k a)) :
    Resolves (names ++ names') complete (x >>= k) := by
  intro m
  obtain ⟨events, htrace, houtcome⟩ := h m
  rw [bind_apply]
  rcases hx : x m with ⟨e | a, m'⟩
  · rw [hx] at htrace houtcome
    refine ⟨events, htrace, ?_, ?_, ?_, ?_⟩
    · exact houtcome.sublist.trans (List.sublist_append_left _ _)
    · intro _ b hb
      cases hb
    · intro hc e' he
      cases he
      exact (houtcome.initial hc e rfl).trans (List.prefix_append _ _)
    · intro e' name he hname
      cases he
      exact houtcome.blamed e name rfl hname
  · rw [hx] at htrace houtcome
    obtain ⟨events', htrace', houtcome'⟩ := hk a m'
    have hasked : resolvedNames (events' ++ events).reverse =
        resolvedNames events.reverse ++ resolvedNames events'.reverse := by
      rw [List.reverse_append, resolvedNames, List.filterMap_append]
      rfl
    refine ⟨events' ++ events, ?_, ?_⟩
    · rw [List.append_assoc, ← htrace]
      exact htrace'
    rw [hasked]
    refine ⟨houtcome.sublist.append houtcome'.sublist, ?_, ?_, ?_⟩
    · intro hc b hb
      rw [houtcome.all hc a rfl, houtcome'.all hc b hb]
    · intro hc e he
      rw [houtcome.all hc a rfl]
      exact (List.prefix_append_right_inj names).mpr (houtcome'.initial hc e he)
    · intro e name he hname
      rw [List.getLast?_append, houtcome'.blamed e name he hname]
      rfl

/-- A step that resolves some names resolves some of more names. -/
theorem weaken {complete' : Prop} {x : EvalM σ α} (h : Resolves names complete x)
    (hnames : names.Sublist names') (hc : complete' → complete ∧ names = names') :
    Resolves names' complete' x := by
  intro m
  obtain ⟨events, htrace, houtcome⟩ := h m
  refine ⟨events, htrace, houtcome.sublist.trans hnames, ?_, ?_, houtcome.blamed⟩
  · intro hc' a ha
    obtain ⟨hcomplete, rfl⟩ := hc hc'
    exact houtcome.all hcomplete a ha
  · intro hc' e he
    obtain ⟨hcomplete, rfl⟩ := hc hc'
    exact houtcome.initial hcomplete e he

/-- What resolves nothing does not matter before a step. -/
theorem lift_bind {result : Except EvalError α} {k : α → EvalM σ β} (h : Nameless result)
    (hk : ∀ a, Resolves names complete (k a)) :
    Resolves names complete (EvalM.lift result >>= k) :=
  (lift h).bind hk

/-- What resolves nothing does not matter after a step. -/
theorem bind_nil {x : EvalM σ α} {k : α → EvalM σ β} (h : Resolves names complete x)
    (hk : ∀ a, Resolves [] complete (k a)) : Resolves names complete (x >>= k) := by
  have hbind := h.bind hk
  rwa [List.append_nil] at hbind

theorem inFrame {x : EvalM σ α} (base : Value) (h : Resolves names complete x) :
    Resolves names complete (EvalM.inFrame base x) := by
  intro m
  obtain ⟨events, htrace, houtcome⟩ := h { m with frames := m.frames.push base }
  change (x _).2.trace = events ++ m.trace at htrace
  show ∃ events, (x { m with frames := m.frames.push base }).2.leave.trace = events ++ m.trace ∧
    Outcome names complete (resolvedNames events.reverse) _
  unfold Interpreter.leave
  cases (x { m with frames := m.frames.push base }).2.frames.pop? with
  | some frames => exact ⟨events, htrace, houtcome⟩
  | none =>
    refine ⟨.underflow :: events, congrArg (Event.underflow :: ·) htrace, ?_⟩
    have hasked : resolvedNames (Event.underflow :: events).reverse =
        resolvedNames events.reverse := by
      rw [List.reverse_cons, resolvedNames, List.filterMap_append]
      exact List.append_nil _
    rw [hasked]
    exact houtcome

/-- After the truth of a first operand, which steps follow is open. -/
theorem bind_toTruth {x : EvalM σ Value} {k : Bool → EvalM σ Value} (hx : Resolves names complete x)
    (hk : ∀ t, Resolves names' False (k t)) :
    Resolves (names ++ names') False (do let a ← x; let t ← EvalM.lift a.toTruth; k t) :=
  (hx.weaken (.refl _) False.elim).bind fun a => lift_bind (Nameless.toTruth a) hk

/-- The logical operators may leave out the right operand, the others evaluate both. -/
theorem combine {x y : EvalM σ Value} (op : BinaryOp) (hx : Resolves names complete x)
    (hy : Resolves names' complete y) :
    Resolves (names ++ names') (op.isLogical = false ∧ complete) (EvalM.combine op x y) := by
  have hskip (b : Bool) : Resolves names' False (Pure.pure (.boolean b) : EvalM σ Value) := by
    have hpure : Resolves [] False (Pure.pure (.boolean b) : EvalM σ Value) := lift (Nameless.ok _)
    exact hpure.weaken (List.nil_sublist names') False.elim
  have hright : Resolves names' False
      (do return .boolean (← EvalM.lift (← y).toTruth) : EvalM σ Value) := by
    refine (hy.weaken (.refl _) False.elim).bind_nil fun b => ?_
    exact lift_bind (Nameless.toTruth b) fun t => lift (Nameless.ok _)
  cases op with
  | or =>
    refine (hx.bind_toTruth fun t => ?_).weaken (.refl _) fun h => by cases h.1
    cases t with
    | true => exact hskip true
    | false => exact hright
  | and =>
    refine (hx.bind_toTruth fun t => ?_).weaken (.refl _) fun h => by cases h.1
    cases t with
    | true => exact hright
    | false => exact hskip false
  | relation r =>
    have hall : Resolves (names ++ names') complete (EvalM.combine (.relation r) x y) :=
      hx.bind fun a => hy.bind_nil fun b => lift (Nameless.relation r a b)
    exact hall.weaken (.refl _) fun h => ⟨h.2, rfl⟩
  | arithmetic op =>
    have hall : Resolves (names ++ names') complete (EvalM.combine (.arithmetic op) x y) := by
      refine hx.bind fun a => lift_bind (Nameless.toNumber a) fun u => ?_
      refine hy.bind_nil fun b => lift_bind (Nameless.toNumber b) fun v => ?_
      exact lift (Nameless.arithmetic op u v)
    exact hall.weaken (.refl _) fun h => ⟨h.2, rfl⟩

end Resolves

end EvalM

end PredicateLang
