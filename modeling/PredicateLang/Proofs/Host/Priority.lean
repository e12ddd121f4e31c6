import PredicateLang.Proofs.Host.Calls
import PredicateLang.Proofs.Value.Reach

/-!
# Which capability answers

Names are resolved by rules. A map has an entry or nothing, a scalar has no members. An
object is asked through its capabilities in the order of their precedence, and the first one
that it has gives the answer, be it a value or a failure; nothing is asked after that. The
rules say which questions are asked, and they determine the outcome.
-/

namespace PredicateLang

/-- What an object may be able to do. -/
inductive Capability where
  | scope
  | entries
  | method
  | field
  deriving Repr, DecidableEq

/-- The capabilities in the order of their precedence. -/
def Capability.order : List Capability :=
  [.scope, .entries, .method, .field]

/-- The capability that a question is about. -/
def Question.capability : Question → Capability
  | .scope | .variable _ => .scope
  | .entries => .entries
  | .method _ => .method
  | .field _ => .field

/-- What comes of the answer of a method. One value is accepted, alone or where nothing went
wrong. -/
inductive Returned.Gives (name : String) : Returned → Except EvalError Value → Prop
  | single (v : Value) : Gives name (.single v) (.ok v)
  | pair (v : Value) : Gives name (.pair v none) (.ok v)
  | failure (v : Value) (cause : HostError) :
      Gives name (.pair v (some cause)) (.error (.host name cause))
  | one (v : Value) : Gives name (.many [v]) (.ok v)
  | withNil (v : Value) : Gives name (.many [v, .nil]) (.ok v)
  | notAnError (v second : Value) : second ≠ .nil →
      Gives name (.many [v, second]) (.error (.malformedAccessor name (.notAnError second)))
  | count (values : List Value) : values.length ≠ 1 → values.length ≠ 2 →
      Gives name (.many values) (.error (.malformedAccessor name (.count values.length)))

variable {σ : Type}

/-- What an object says to a name through one capability, if it has it: the answer, the state of
the host afterwards, and the questions. -/
inductive Host.Answers (host : Host σ) (name : String) :
    Capability → σ → Option (Except EvalError Value) → σ → List Question → Prop
  | noScope {s s' : σ} : host.scope s = (none, s') → Answers host name .scope s none s' [.scope]
  | variable {s s₁ s' : σ} {lookup : String → StateM σ (Except HostError Value)} {v : Value} :
      host.scope s = (some lookup, s₁) → lookup name s₁ = (.ok v, s') →
      Answers host name .scope s (some (.ok v)) s' [.scope, .variable name]
  | failure {s s₁ s' : σ} {lookup : String → StateM σ (Except HostError Value)}
      {cause : HostError} : host.scope s = (some lookup, s₁) → lookup name s₁ = (.error cause, s') →
      Answers host name .scope s (some (.error (.host name cause))) s' [.scope, .variable name]
  | noEntries {s s' : σ} : host.entries s = (none, s') →
      Answers host name .entries s none s' [.entries]
  | entry {s s' : σ} {entries : Entries Value} {v : Value} : host.entries s = (some entries, s') →
      entries.get? name = some v → Answers host name .entries s (some (.ok v)) s' [.entries]
  | missing {s s' : σ} {entries : Entries Value} : host.entries s = (some entries, s') →
      entries.get? name = none → Answers host name .entries s (some (.ok .nil)) s' [.entries]
  | noMethod {s s' : σ} : host.method name s = (none, s') →
      Answers host name .method s none s' [.method name]
  | method {s s' : σ} {returned : Returned} {result : Except EvalError Value} :
      host.method name s = (some returned, s') → returned.Gives name result →
      Answers host name .method s (some result) s' [.method name]
  | noField {s s' : σ} : host.field name s = (none, s') →
      Answers host name .field s none s' [.field name]
  | field {s s' : σ} {v : Value} : host.field name s = (some v, s') →
      Answers host name .field s (some (.ok v)) s' [.field name]

/-- What an object says to a name through the first of some capabilities that it has. -/
inductive Host.First (host : Host σ) (name : String) :
    List Capability → σ → Option (Except EvalError Value) → σ → List Question → Prop
  | nothing {s : σ} : First host name [] s none s []
  | present {c : Capability} {rest : List Capability} {s s' : σ} {result : Except EvalError Value}
      {asked : List Question} : host.Answers name c s (some result) s' asked →
      First host name (c :: rest) s (some result) s' asked
  | absent {c : Capability} {rest : List Capability} {s s' s'' : σ}
      {answer : Option (Except EvalError Value)} {asked asked' : List Question} :
      host.Answers name c s none s' asked → First host name rest s' answer s'' asked' →
      First host name (c :: rest) s answer s'' (asked ++ asked')

/-- The rules by which a name is resolved against a base value. -/
inductive ResolvesTo (world : World σ) (name : String) (s : σ) :
    Value → Except EvalError Value → σ → List HostCall → Prop
  | entry {id : Identity} {entries : Entries Value} {v : Value} : entries.get? name = some v →
      ResolvesTo world name s (.map id entries) (.ok v) s []
  | missing {id : Identity} {entries : Entries Value} : entries.get? name = none →
      ResolvesTo world name s (.map id entries) (.ok .nil) s []
  | scalar {base : Value} : base.isScalar = true →
      ResolvesTo world name s base (.error (.noSuchMember name base.typeName)) s []
  | answered {ref : HostRef} {result : Except EvalError Value} {s' : σ} {asked : List Question} :
      (world ref).First name Capability.order s (some result) s' asked →
      ResolvesTo world name s (.host ref) result s' (asked.map (HostCall.mk ref))
  | unanswered {ref : HostRef} {s' : σ} {asked : List Question} :
      (world ref).First name Capability.order s none s' asked →
      ResolvesTo world name s (.host ref) (.error (.noSuchMember name (world ref).typeName)) s'
        (asked.map (HostCall.mk ref))

/-- The world in which every object is behind a number of indirections. -/
def World.behind (world : World σ) (layers : HostRef → List Indirection) : World σ :=
  fun ref => (layers ref).foldr Host.behind (world ref)

theorem StateM.bind_eq {α β : Type} {x : StateM σ α} {s s' : σ} {a : α} (h : x s = (a, s'))
    (k : α → StateM σ β) : (x >>= k) s = k a s' := by
  change k (x s).1 (x s).2 = k a s'
  rw [h]

theorem HostCall.recording_eq {α : Type} {step : StateM σ α} {s s' : σ} {a : α}
    (h : step s = (a, s')) (call : HostCall) (calls : List HostCall) :
    call.recording step (s, calls) = (a, s', call :: calls) := by
  simp only [recording, h]

variable {name : String}

namespace Returned

/-- What a method handed back decides what is made of it. -/
theorem gives_iff {returned : Returned} {result : Except EvalError Value} :
    returned.Gives name result ↔ returned.unpack name = result := by
  constructor
  · intro h
    cases h with
    | notAnError v second hsecond =>
      cases second with
      | nil => exact absurd rfl hsecond
      | _ => rfl
    | count values hone htwo =>
      match values with
      | [] => rfl
      | [_] => exact absurd rfl hone
      | [_, _] => exact absurd rfl htwo
      | _ :: second :: _ :: _ => cases second <;> rfl
    | _ => rfl
  · rintro rfl
    match returned with
    | .single v => exact .single v
    | .pair v none => exact .pair v
    | .pair v (some cause) => exact .failure v cause
    | .many [] => exact .count [] nofun nofun
    | .many [v] => exact .one v
    | .many [v, second] =>
      cases second with
      | nil => exact .withNil v
      | _ => exact .notAnError v _ nofun
    | .many (v :: second :: third :: rest) =>
      have h : (Returned.many (v :: second :: third :: rest)).unpack name =
          .error (.malformedAccessor name (.count (v :: second :: third :: rest).length)) := by
        cases second <;> rfl
      exact h ▸ .count _ nofun nofun

end Returned

namespace Host

/-- What an object answers to a name through one capability. -/
def ask (host : Host σ) (name : String) :
    Capability → StateM σ (Option (Except EvalError Value))
  | .scope => do
    match ← host.scope with
    | some lookup => return some ((← lookup name).mapError (.host name))
    | none => return none
  | .entries => do
    return (← host.entries).map fun entries => .ok (Value.ofOption (entries.get? name))
  | .method => do return (← host.method name).map (Returned.unpack name)
  | .field => do return (← host.field name).map .ok

/-- What an object answers to a name through the first capability that it has. -/
def askFirst (host : Host σ) (name : String) :
    List Capability → StateM σ (Option (Except EvalError Value))
  | [] => pure none
  | c :: rest => do
    match ← host.ask name c with
    | some result => return some result
    | none => host.askFirst name rest

variable {host : Host σ} {ref : HostRef} {c : Capability} {caps : List Capability} {s s' : σ}
  {answer : Option (Except EvalError Value)} {asked : List Question}

theorem resolve_eq_askFirst (host : Host σ) (name : String) :
    host.resolve name = (do
      return (← host.askFirst name Capability.order).getD
        (.error (.noSuchMember name host.typeName))) := by
  simp only [resolve, askFirst, ask, Capability.order, bind_assoc]
  refine bind_congr fun lookup? => ?_
  cases lookup? with
  | some lookup => simp only [bind_assoc, pure_bind, Option.getD_some]
  | none =>
    simp only [pure_bind, bind_assoc]
    refine bind_congr fun entries? => ?_
    cases entries? with
    | some entries => simp only [pure_bind, Option.map_some, Option.getD_some]
    | none =>
      simp only [Option.map_none, bind_assoc]
      refine bind_congr fun returned? => ?_
      cases returned? with
      | some returned => simp only [pure_bind, Option.map_some, Option.getD_some]
      | none =>
        simp only [resolveField, Option.map_none, bind_assoc]
        refine bind_congr fun field? => ?_
        cases field? with
        | some v => simp only [pure_bind, Option.map_some, Option.getD_some]
        | none => simp only [pure_bind, Option.map_none, Option.getD_none]

theorem watched_scope_eq {lookup? : Option (String → StateM σ (Except HostError Value))}
    (h : host.scope s = (lookup?, s')) (calls : List HostCall) :
    (host.watched ref).scope (s, calls) =
      (lookup?.map fun lookup name => HostCall.recording ⟨ref, .variable name⟩ (lookup name),
        s', ⟨ref, .scope⟩ :: calls) := by
  refine HostCall.recording_eq ?_ ⟨ref, .scope⟩ calls
  exact StateM.bind_eq h _

theorem Answers.watched_eq (h : host.Answers name c s answer s' asked) (calls : List HostCall) :
    (host.watched ref).ask name c (s, calls) =
      (answer, s', (asked.map (HostCall.mk ref)).reverse ++ calls) := by
  cases h with
  | noScope hscope => exact StateM.bind_eq (watched_scope_eq hscope calls) _
  | «variable» hscope hlookup =>
    refine (StateM.bind_eq (watched_scope_eq hscope calls) _).trans ?_
    exact StateM.bind_eq (HostCall.recording_eq hlookup _ _) _
  | failure hscope hlookup =>
    refine (StateM.bind_eq (watched_scope_eq hscope calls) _).trans ?_
    exact StateM.bind_eq (HostCall.recording_eq hlookup _ _) _
  | noEntries hentries => exact StateM.bind_eq (HostCall.recording_eq hentries _ calls) _
  | entry hentries hget =>
    refine (StateM.bind_eq (HostCall.recording_eq hentries _ calls) _).trans ?_
    simp only [Option.map_some, hget]
    rfl
  | missing hentries hget =>
    refine (StateM.bind_eq (HostCall.recording_eq hentries _ calls) _).trans ?_
    simp only [Option.map_some, hget]
    rfl
  | noMethod hmethod => exact StateM.bind_eq (HostCall.recording_eq hmethod _ calls) _
  | method hmethod hgives =>
    rw [← Returned.gives_iff.mp hgives]
    exact StateM.bind_eq (HostCall.recording_eq hmethod _ calls) _
  | noField hfield => exact StateM.bind_eq (HostCall.recording_eq hfield _ calls) _
  | field hfield => exact StateM.bind_eq (HostCall.recording_eq hfield _ calls) _

/-- Every object has an answer through every capability, or lacks it. -/
theorem exists_answers (host : Host σ) (name : String) (c : Capability) (s : σ) :
    ∃ answer s' asked, host.Answers name c s answer s' asked := by
  cases c with
  | scope =>
    rcases hscope : host.scope s with ⟨_ | lookup, s₁⟩
    · exact ⟨_, _, _, .noScope hscope⟩
    · rcases hlookup : lookup name s₁ with ⟨cause | v, s₂⟩
      · exact ⟨_, _, _, .failure hscope hlookup⟩
      · exact ⟨_, _, _, .variable hscope hlookup⟩
  | entries =>
    rcases hentries : host.entries s with ⟨_ | entries, s₁⟩
    · exact ⟨_, _, _, .noEntries hentries⟩
    · rcases hget : entries.get? name with _ | v
      · exact ⟨_, _, _, .missing hentries hget⟩
      · exact ⟨_, _, _, .entry hentries hget⟩
  | method =>
    rcases hmethod : host.method name s with ⟨_ | returned, s₁⟩
    · exact ⟨_, _, _, .noMethod hmethod⟩
    · exact ⟨_, _, _, .method hmethod (Returned.gives_iff.mpr rfl)⟩
  | field =>
    rcases hfield : host.field name s with ⟨_ | v, s₁⟩
    · exact ⟨_, _, _, .noField hfield⟩
    · exact ⟨_, _, _, .field hfield⟩

theorem First.watched_eq (h : host.First name caps s answer s' asked) (calls : List HostCall) :
    (host.watched ref).askFirst name caps (s, calls) =
      (answer, s', (asked.map (HostCall.mk ref)).reverse ++ calls) := by
  induction h generalizing calls with
  | nothing => rfl
  | present h => exact StateM.bind_eq (h.watched_eq calls) _
  | @absent c rest s s₁ s' answer asked asked' h _ ih =>
    refine (StateM.bind_eq (h.watched_eq calls) _).trans ((ih _).trans ?_)
    rw [List.map_append, List.reverse_append, List.append_assoc]

theorem exists_first (host : Host σ) (name : String) (caps : List Capability) (s : σ) :
    ∃ answer s' asked, host.First name caps s answer s' asked := by
  induction caps generalizing s with
  | nil => exact ⟨_, _, _, .nothing⟩
  | cons c rest ih =>
    obtain ⟨_ | result, s₁, asked, h⟩ := host.exists_answers name c s
    · obtain ⟨answer, s', asked', hrest⟩ := ih s₁
      exact ⟨_, _, _, .absent h hrest⟩
    · exact ⟨_, _, _, .present h⟩

theorem Answers.capability_of_mem (h : host.Answers name c s answer s' asked) :
    ∀ question ∈ asked, question.capability = c := by
  cases h
  all_goals simp [Question.capability]

/-- Only the capabilities up to the one that answers are asked, and those before it are absent. -/
theorem First.exists_used {result : Except EvalError Value}
    (h : host.First name caps s (some result) s' asked) :
    ∃ before used after s₁ asked₁ asked₂, caps = before ++ used :: after ∧
      host.First name before s none s₁ asked₁ ∧
      host.Answers name used s₁ (some result) s' asked₂ ∧
      asked = asked₁ ++ asked₂ ∧ ∀ question ∈ asked, question.capability ∈ before ++ [used] := by
  generalize hanswer : some result = answer at h
  induction h with
  | nothing => cases hanswer
  | @present used rest s s' result asked h =>
    cases hanswer
    refine ⟨[], used, rest, s, [], asked, rfl, .nothing, h, rfl, fun question hmem => ?_⟩
    exact List.mem_singleton.mpr (h.capability_of_mem question hmem)
  | @absent c rest s s₁ s' answer asked asked' h _ ih =>
    obtain ⟨before, used, after, s₂, asked₁, asked₂, rfl, hbefore, hused, rfl, hcaps⟩ := ih hanswer
    refine ⟨c :: before, used, after, s₂, asked ++ asked₁, asked₂, rfl, .absent h hbefore, hused,
      (List.append_assoc ..).symm, fun question hmem => ?_⟩
    rcases List.mem_append.mp hmem with hmem | hmem
    · exact h.capability_of_mem question hmem ▸ List.mem_cons_self ..
    · exact List.mem_cons_of_mem _ (hcaps question hmem)

end Host

variable {world : World σ} {base : Value} {result : Except EvalError Value} {s s' : σ}
  {asked : List HostCall}

theorem ResolvesTo.watched_eq (h : ResolvesTo world name s base result s' asked)
    (calls : List HostCall) :
    resolve world.watched base name (s, calls) = (result, s', asked.reverse ++ calls) := by
  cases h with
  | entry hget => simp only [resolve, hget]; rfl
  | missing hget => simp only [resolve, hget]; rfl
  | scalar hscalar => cases base <;> first | rfl | cases hscalar
  | @answered ref result s' asked h =>
    refine (congrFun (Host.resolve_eq_askFirst _ name) _).trans ?_
    exact StateM.bind_eq (h.watched_eq calls) _
  | @unanswered ref s' asked h =>
    refine (congrFun (Host.resolve_eq_askFirst _ name) _).trans ?_
    exact StateM.bind_eq (h.watched_eq calls) _

theorem exists_resolvesTo (world : World σ) (base : Value) (name : String) (s : σ) :
    ∃ result s' asked, ResolvesTo world name s base result s' asked := by
  cases base with
  | map id entries =>
    rcases hget : Entries.get? name entries with _ | v
    · exact ⟨_, _, _, .missing hget⟩
    · exact ⟨_, _, _, .entry hget⟩
  | host ref =>
    obtain ⟨_ | result, s', asked, h⟩ := (world ref).exists_first name Capability.order s
    · exact ⟨_, _, _, .unanswered h⟩
    · exact ⟨_, _, _, .answered h⟩
  | _ => exact ⟨_, _, _, .scalar rfl⟩

theorem Host.foldr_behind (layers : List Indirection) (host : Host σ) :
    layers.foldr Host.behind host = host := by
  induction layers with
  | nil => rfl
  | cons i layers ih => exact (congrArg (Host.behind i) ih).trans rfl

theorem World.behind_eq (world : World σ) (layers : HostRef → List Indirection) :
    world.behind layers = world :=
  funext fun ref => Host.foldr_behind (layers ref) (world ref)

/-- The rules determine what comes of a watched resolution. -/
theorem resolve_watched_iff {calls calls' : List HostCall} :
    resolve world.watched base name (s, calls) = (result, s', calls') ↔
      ∃ asked, ResolvesTo world name s base result s' asked ∧ calls' = asked.reverse ++ calls := by
  constructor
  · intro hresolve
    obtain ⟨result', s'', asked, h⟩ := exists_resolvesTo world base name s
    cases (h.watched_eq calls).symm.trans hresolve
    exact ⟨asked, h, rfl⟩
  · rintro ⟨asked, h, rfl⟩
    exact h.watched_eq calls

theorem resolve_iff : resolve world base name s = (result, s') ↔
    ∃ asked, ResolvesTo world name s base result s' asked := by
  obtain ⟨hresult, hstate⟩ := watches_resolve world base name s []
  constructor
  · intro hresolve
    rw [hresolve] at hresult hstate
    obtain ⟨asked, h, -⟩ := resolve_watched_iff.mp (Prod.ext hresult (Prod.ext hstate rfl))
    exact ⟨asked, h⟩
  · rintro ⟨asked, h⟩
    rw [h.watched_eq []] at hresult hstate
    exact Prod.ext hresult.symm hstate.symm

namespace Returned

/-- A method is believed if it handed back one value, and nothing but nil beside it. -/
theorem unpack_eq_ok_iff {returned : Returned} {v : Value} : returned.unpack name = .ok v ↔
    returned = .single v ∨ returned = .pair v none ∨ returned = .many [v] ∨
      returned = .many [v, .nil] := by
  rw [← gives_iff]
  constructor
  · intro h
    cases h with
    | single => exact .inl rfl
    | pair => exact .inr (.inl rfl)
    | one => exact .inr (.inr (.inl rfl))
    | withNil => exact .inr (.inr (.inr rfl))
  · rintro (rfl | rfl | rfl | rfl)
    · exact .single v
    · exact .pair v
    · exact .one v
    · exact .withNil v

theorem unpack_many (name : String) (values : List Value) :
    (∃ v, (Returned.many values).unpack name = .ok v) ∨
      ∃ fault, (Returned.many values).unpack name = .error (.malformedAccessor name fault) := by
  have h : (Returned.many values).Gives name ((Returned.many values).unpack name) :=
    gives_iff.mpr rfl
  generalize (Returned.many values).unpack name = result at h ⊢
  cases h with
  | one v => exact .inl ⟨v, rfl⟩
  | withNil v => exact .inl ⟨v, rfl⟩
  | notAnError v second _ => exact .inr ⟨.notAnError second, rfl⟩
  | count _ _ _ => exact .inr ⟨.count values.length, rfl⟩

end Returned

/-- A resolution comes out as the rules say and asks what they say, whatever the base value is,
whichever capabilities an object has and whatever it answers. The object is asked for its
capabilities in their order up to the first that it has, and for none after that. Of the answers of
a method those with one value are accepted, and a list that is not is malformed. Indirections
before an object are noticed neither in the outcome nor by the object. -/
theorem resolve_follows_priority (world : World σ) (base : Value) (name : String) (s : σ) :
    (∀ calls result s' calls',
      resolve world.watched base name (s, calls) = (result, s', calls') ↔
        ∃ asked, ResolvesTo world name s base result s' asked ∧ calls' = asked.reverse ++ calls) ∧
    (∀ result s', resolve world base name s = (result, s') ↔
      ∃ asked, ResolvesTo world name s base result s' asked) ∧
    (∀ ref result s' asked,
      (world ref).First name Capability.order s (some result) s' asked →
        ∃ before used after s₁ asked₁ asked₂, Capability.order = before ++ used :: after ∧
          (world ref).First name before s none s₁ asked₁ ∧
          (world ref).Answers name used s₁ (some result) s' asked₂ ∧
          asked = asked₁ ++ asked₂ ∧
          ∀ question ∈ asked, question.capability ∉ after) ∧
    (∀ returned v, Returned.unpack name returned = .ok v ↔
      returned = .single v ∨ returned = .pair v none ∨ returned = .many [v] ∨
        returned = .many [v, .nil]) ∧
    (∀ v cause, Returned.unpack name (.pair v (some cause)) = .error (.host name cause)) ∧
    (∀ values, (∃ v, Returned.unpack name (.many values) = .ok v) ∨
      ∃ fault, Returned.unpack name (.many values) = .error (.malformedAccessor name fault)) ∧
    ∀ layers : HostRef → List Indirection,
      resolve (world.watched.behind layers) base name = resolve world.watched base name ∧
        ∀ ref, (world.watched.behind layers ref).typeName = (world ref).typeName := by
  refine ⟨fun _ _ _ _ => resolve_watched_iff, fun _ _ => resolve_iff, ?_,
    fun _ _ => Returned.unpack_eq_ok_iff, fun _ _ => rfl, Returned.unpack_many name,
    fun layers => ?_⟩
  · intro ref result s' asked h
    obtain ⟨before, used, after, s₁, asked₁, asked₂, horder, hbefore, hused, hasked, hmem⟩ :=
      h.exists_used
    refine ⟨before, used, after, s₁, asked₁, asked₂, horder, hbefore, hused, hasked, ?_⟩
    intro question hquestion hafter
    have hnodup : (before ++ [used] ++ after).Nodup := by
      rw [List.append_assoc, List.singleton_append, ← horder]
      decide
    exact (List.nodup_append.mp hnodup).2.2 _ (hmem question hquestion) _ hafter rfl
  · rw [World.behind_eq]
    exact ⟨rfl, fun _ => rfl⟩

/-- The field does not step in where the method of the same name fails. -/
theorem resolve_follows_priority_malformed :
    let ref : HostRef := ⟨0, "object"⟩
    let world : World Unit := fun ref =>
      { Host.bare ref.typeName with
        method := fun _ => pure (some (.many []))
        field := fun _ => pure (some (.boolean true)) }
    let result : Except EvalError Value := .error (.malformedAccessor "owner" (.count 0))
    let asked : List Question := [.scope, .entries, .method "owner"]
    ResolvesTo world "owner" () (.host ref) result () (asked.map (HostCall.mk ref)) ∧
      (world ref).First "owner" Capability.order () (some result) () asked ∧
      ∃ before used after, Capability.order = before ++ used :: after ∧
        ∀ question ∈ asked, question.capability ∉ after := by
  intro ref world result asked
  obtain ⟨hwatched, -, hfirst, -⟩ := resolve_follows_priority world (.host ref) "owner" ()
  obtain ⟨calls, hresolves, hcalls⟩ :=
    (hwatched [] result () (asked.map (HostCall.mk ref)).reverse).mp rfl
  obtain rfl : asked.map (HostCall.mk ref) = calls :=
    List.reverse_inj.mp (hcalls.trans (List.append_nil _))
  have h : (world ref).First "owner" Capability.order () (some result) () asked :=
    .absent (.noScope rfl) (.absent (.noEntries rfl)
      (.present (.method rfl (.count [] nofun nofun))))
  obtain ⟨before, used, after, -, -, -, horder, -, -, -, hnot⟩ := hfirst ref result () asked h
  exact ⟨hresolves, h, before, used, after, horder, hnot⟩

end PredicateLang
