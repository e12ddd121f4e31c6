import PredicateLang.Host.Resolve

/-!
# Calls of host code

A world can be watched: the watched world answers every question as before and
keeps a list of the questions that were asked. The list is part of the state of
the host, so whatever is proved about that state is proved about the calls and
their order.
-/

namespace PredicateLang

/-- What can be asked of a host object. -/
inductive Question where
  | scope
  | variable (name : String)
  | entries
  | method (name : String)
  | field (name : String)
  deriving Repr, DecidableEq

/-- A question to the object behind a reference. -/
structure HostCall where
  ref : HostRef
  question : Question
  deriving Repr, DecidableEq

variable {σ α β : Type}

/-- Runs a step of the host and adds a call to those recorded, the latest first. -/
def HostCall.recording (call : HostCall) (step : StateM σ α) : StateM (σ × List HostCall) α :=
  fun s =>
    let r := step s.1
    (r.1, (r.2, call :: s.2))

/-- The object behind a reference, with a record of what it is asked. -/
def Host.watched (ref : HostRef) (host : Host σ) : Host (σ × List HostCall) where
  typeName := host.typeName
  scope := HostCall.recording ⟨ref, .scope⟩ do
    let lookup? ← host.scope
    pure (lookup?.map fun lookup name => HostCall.recording ⟨ref, .variable name⟩ (lookup name))
  entries := HostCall.recording ⟨ref, .entries⟩ host.entries
  method name := HostCall.recording ⟨ref, .method name⟩ (host.method name)
  field name := HostCall.recording ⟨ref, .field name⟩ (host.field name)

/-- The world with a record of everything it is asked. -/
def World.watched (world : World σ) : World (σ × List HostCall) :=
  fun ref => (world ref).watched ref

/-- The step `x` of a watched host does to the state what `y` does, and their results are
related by `r`. What is recorded is left open. -/
def Watches (r : α → β → Prop) (x : StateM (σ × List HostCall) α) (y : StateM σ β) : Prop :=
  ∀ s calls, r (x (s, calls)).1 (y s).1 ∧ (x (s, calls)).2.1 = (y s).2

namespace Watches

theorem pure {r : α → β → Prop} {a : α} {b : β} (h : r a b) :
    Watches r (pure a : StateM (σ × List HostCall) α) (pure b) :=
  fun _ _ => ⟨h, rfl⟩

theorem recording {r : α → β → Prop} {x : StateM σ α} {y : StateM σ β}
    (h : ∀ s, r (x s).1 (y s).1 ∧ (x s).2 = (y s).2) (call : HostCall) :
    Watches r (call.recording x) y :=
  fun s _ => h s

theorem answer (call : HostCall) (x : StateM σ α) : Watches Eq (call.recording x) x :=
  recording (fun _ => ⟨rfl, rfl⟩) call

theorem bind {α' β' : Type} {r : α → β → Prop} {q : α' → β' → Prop}
    {x : StateM (σ × List HostCall) α} {y : StateM σ β}
    {k : α → StateM (σ × List HostCall) α'} {l : β → StateM σ β'} (h : Watches r x y)
    (hk : ∀ a b, r a b → Watches q (k a) (l b)) : Watches q (x >>= k) (y >>= l) := by
  intro s calls
  obtain ⟨hr, hs⟩ := h s calls
  have hq := hk _ _ hr (x (s, calls)).2.1 (x (s, calls)).2.2
  rw [hs] at hq
  change q (k (x (s, calls)).1 (x (s, calls)).2).1 (l (y s).1 (y s).2).1 ∧
    (k (x (s, calls)).1 (x (s, calls)).2).2.1 = (l (y s).1 (y s).2).2
  rwa [← hs] at hq ⊢

end Watches

/-- A watched object answers a name as the object does. -/
theorem Host.watches_resolve (ref : HostRef) (host : Host σ) (name : String) :
    Watches Eq ((host.watched ref).resolve name) (host.resolve name) := by
  refine Watches.bind (r := Option.Rel fun f g => ∀ name, Watches Eq (f name) (g name)) ?_ ?_
  · apply Watches.recording
    intro s
    refine ⟨?_, rfl⟩
    change Option.Rel _ (Option.map _ (host.scope s).1) (host.scope s).1
    cases (host.scope s).1 with
    | none => exact .none
    | some lookup => exact .some fun name => .answer _ _
  · intro lookup? lookup?' h
    cases h with
    | some h => exact (h name).bind fun a b hab => hab ▸ .pure rfl
    | none =>
      refine (Watches.answer _ _).bind fun entries? _ h => h ▸ ?_
      cases entries? with
      | some entries => exact .pure rfl
      | none =>
        refine (Watches.answer _ _).bind fun returned? _ h => h ▸ ?_
        cases returned? with
        | some returned => exact .pure rfl
        | none =>
          refine (Watches.answer _ _).bind fun field? _ h => h ▸ ?_
          cases field? with
          | some v => exact .pure rfl
          | none => exact .pure rfl

/-- Watching a world changes no answer and no state of the host. -/
theorem watches_resolve (world : World σ) (base : Value) (name : String) :
    Watches Eq (resolve world.watched base name) (resolve world base name) := by
  cases base with
  | host ref => exact (world ref).watches_resolve ref name
  | _ => exact .pure rfl

end PredicateLang
