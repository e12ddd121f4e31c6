import PredicateLang.Proofs.Eval.Nesting
import PredicateLang.Proofs.Eval.Operand
import PredicateLang.Proofs.Eval.Stackless

/-!
# The evaluations inside an evaluation

The evaluation of a node starts those of its operands: of the left one at once, of the
right one if the left one has a value that calls for it. `Arrives` follows these steps down
from the root and says from which interpreter each node is evaluated. A node is evaluated
from one interpreter only, and what the trace enters are the nodes that are arrived at.
-/

namespace PredicateLang

variable {σ : Type}

/-- The evaluation of a node from the interpreter `n` starts that of an operand from `n'`. -/
inductive Starts (world : World σ) (address : Address) (n : Interpreter σ) :
    Expr → Side → Expr → Interpreter σ → Prop
  | left {e l : Expr} : e.operand? .left = some l →
      Starts world address n e .left l (n.record (.entered address n.frames e))
  | path {base path : Expr} {v : Value} {n' : Interpreter σ} :
      evaluateAt world base (.left :: address)
        (n.record (.entered address n.frames (.member base path))) = (.ok v, n') →
      Starts world address n (.member base path) .right path
        { n' with frames := n'.frames.push v }
  | right {op : BinaryOp} {l r : Expr} {v : Value} {n' : Interpreter σ}
      {finish : Value → Except EvalError Value} :
      evaluateAt world l (.left :: address)
        (n.record (.entered address n.frames (.binary op l r))) = (.ok v, n') →
      op.afterLeft v = .pending finish →
      Starts world address n (.binary op l r) .right r n'

/-- In the evaluation of `root` from `m`, the node at an address is evaluated from `n`. -/
inductive Arrives (world : World σ) (root : Expr) (m : Interpreter σ) :
    Address → Expr → Interpreter σ → Prop
  | root : Arrives world root m [] root { m with trace := [] }
  | step {address : Address} {e e' : Expr} {n n' : Interpreter σ} {side : Side} :
      Arrives world root m address e n → Starts world address n e side e' n' →
      Arrives world root m (side :: address) e' n'

/-- What the evaluation of a node adds to the trace: the entry of the node, and then the names that
it resolves itself or the traces of its operands. -/
inductive Course (world : World σ) (address : Address) (n : Interpreter σ) (e : Expr) :
    List Event → Prop
  | leaf {asked : List Event} : (∀ side, e.operand? side = none) →
      (∀ event ∈ asked, ∃ name, event = .resolved name) →
      Course world address n e (asked ++ .entered address n.frames e :: n.trace)
  | stopped {l : Expr} {n₁ : Interpreter σ} : Starts world address n e .left l n₁ →
      (∀ r n₂, ¬ Starts world address n e .right r n₂) →
      Course world address n e (evaluateAt world l (.left :: address) n₁).2.trace
  | through {l r : Expr} {n₁ n₂ : Interpreter σ} : Starts world address n e .left l n₁ →
      Starts world address n e .right r n₂ →
      n₂.trace = (evaluateAt world l (.left :: address) n₁).2.trace →
      Course world address n e (evaluateAt world r (.right :: address) n₂).2.trace

variable {world : World σ} {root e e' : Expr} {address : Address} {m n n' : Interpreter σ}
  {side : Side}

/-- What holds of a tree whose operands it holds of holds of all trees. -/
theorem Expr.operand_induction {P : Expr → Prop}
    (h : ∀ e, (∀ side e', e.operand? side = some e' → P e') → P e) (e : Expr) : P e := by
  induction e with
  | literal l => exact h _ fun side e' he => by cases side <;> cases he
  | identifier name => exact h _ fun side e' he => by cases side <;> cases he
  | member base path ihb ihp =>
    refine h _ fun side e' he => ?_
    cases side with
    | left => cases he; exact ihb
    | right => cases he; exact ihp
  | binary op left right ihl ihr =>
    refine h _ fun side e' he => ?_
    cases side with
    | left => cases he; exact ihl
    | right => cases he; exact ihr

theorem evaluateAt_frames (world : World σ) (e : Expr) (address : Address) (n : Interpreter σ) :
    (evaluateAt world e address n).2.frames = n.frames := by
  obtain ⟨trace, h, -⟩ := EvalM.evaluateAt_carries world e address n
  rw [h]

theorem frames_of_evaluateAt {result : Except EvalError Value}
    (h : evaluateAt world e address n = (result, n')) : n'.frames = n.frames := by
  have hframes := evaluateAt_frames world e address n
  rwa [h] at hframes

namespace Starts

theorem operand_eq (h : Starts world address n e side e' n') : e.operand? side = some e' := by
  cases h with
  | left hl => exact hl
  | path | right => rfl

theorem trace_left {l : Expr} (h : Starts world address n e .left l n') :
    n'.trace = .entered address n.frames e :: n.trace := by
  cases h
  rfl

/-- A node starts each of its operands from one interpreter at most. -/
theorem unique {e₁ e₂ : Expr} {n₁ n₂ : Interpreter σ} (h₁ : Starts world address n e side e₁ n₁)
    (h₂ : Starts world address n e side e₂ n₂) : e₁ = e₂ ∧ n₁ = n₂ := by
  cases h₁ with
  | left hl =>
    cases h₂ with
    | left hl' => exact ⟨Option.some_inj.mp (hl.symm.trans hl'), rfl⟩
  | path hv =>
    cases h₂ with
    | path hv' =>
      cases hv.symm.trans hv'
      exact ⟨rfl, rfl⟩
  | right hv =>
    cases h₂ with
    | right hv' =>
      cases hv.symm.trans hv'
      exact ⟨rfl, rfl⟩

/-- The operands of an operator start with the frames of the operator. -/
theorem frames_eq {op : BinaryOp} {l r : Expr}
    (h : Starts world address n (.binary op l r) side e' n') : n'.frames = n.frames := by
  cases h with
  | left => rfl
  | right hv => exact (frames_of_evaluateAt hv).trans rfl

end Starts

theorem trace_inFrame {α : Type} {base : Value} {x : EvalM σ α}
    (h : (x { n with frames := n.frames.push base }).2.frames = n.frames.push base) :
    (EvalM.inFrame base x n).2.trace = (x { n with frames := n.frames.push base }).2.trace := by
  rw [EvalM.inFrame, Interpreter.leave]
  dsimp only
  rw [h, Frames.pop?_push]

/-- The evaluation of a node takes one of the three courses. -/
theorem evaluateAt_course (world : World σ) (e : Expr) (address : Address) (n : Interpreter σ) :
    Course world address n e (evaluateAt world e address n).2.trace := by
  cases e with
  | literal l =>
    have hnone : ∀ event ∈ ([] : List Event), ∃ name, event = .resolved name := nofun
    refine Course.leaf (fun side => ?_) hnone
    cases side <;> rfl
  | identifier name =>
    have hasked : ∀ event ∈ [Event.resolved name], ∃ name, event = .resolved name :=
      fun event h => ⟨name, List.mem_singleton.mp h⟩
    refine Course.leaf (fun side => ?_) hasked
    cases side <;> rfl
  | member base path =>
    let n₁ := n.record (.entered address n.frames (.member base path))
    have hleft : Starts world address n (.member base path) .left base n₁ := .left rfl
    show Course world address n _ ((evaluateAt world base (.left :: address) >>=
      fun v => EvalM.inFrame v (evaluateAt world path (.right :: address))) n₁).2.trace
    rw [EvalM.bind_apply]
    rcases hx : evaluateAt world base (.left :: address) n₁ with ⟨fault | v, n'⟩
    · have hstopped := Course.stopped hleft fun r n₂ hright => by
        cases hright with
        | path hv => cases hx.symm.trans hv
      rwa [hx] at hstopped
    · have htrace := trace_inFrame (evaluateAt_frames world path (.right :: address)
        { n' with frames := n'.frames.push v })
      dsimp only
      rw [htrace]
      exact .through hleft (.path hx) (congrArg (fun r => r.2.trace) hx).symm
  | binary op l r =>
    let n₁ := n.record (.entered address n.frames (.binary op l r))
    have hleft : Starts world address n (.binary op l r) .left l n₁ := .left rfl
    show Course world address n _ (EvalM.combine op (evaluateAt world l (.left :: address))
      (evaluateAt world r (.right :: address)) n₁).2.trace
    rw [EvalM.combine_eq, EvalM.bind_apply]
    rcases hx : evaluateAt world l (.left :: address) n₁ with ⟨fault | v, n'⟩
    · have hstopped := Course.stopped hleft fun r n₂ hright => by
        cases hright with
        | right hv => cases hx.symm.trans hv
      rwa [hx] at hstopped
    · dsimp only
      cases hnext : op.afterLeft v with
      | settled result =>
        have hstopped := Course.stopped hleft fun r n₂ hright => by
          cases hright with
          | right hv hpending =>
            cases hx.symm.trans hv
            cases hnext.symm.trans hpending
        rwa [hx] at hstopped
      | pending finish =>
        have hthrough := Course.through hleft (.right hx hnext)
          (congrArg (fun r => r.2.trace) hx).symm
        dsimp only
        rw [EvalM.bind_apply]
        rcases hy : evaluateAt world r (.right :: address) n' with ⟨fault | w, n''⟩
        · rwa [hy] at hthrough
        · rwa [hy] at hthrough

/-- The nodes of a tree in the order in which they are written before their operands, each with its
address. -/
def Expr.preorder : Expr → Address → List (Address × Expr)
  | .literal l, address => [(address, .literal l)]
  | .identifier name, address => [(address, .identifier name)]
  | .member base path, address => (address, .member base path) ::
      (base.preorder (.left :: address) ++ path.preorder (.right :: address))
  | .binary op left right, address => (address, .binary op left right) ::
      (left.preorder (.left :: address) ++ right.preorder (.right :: address))

/-- The node that is entered, if the event is an entry. -/
def Event.started? : Event → Option (Address × Expr)
  | .entered address _ e => some (address, e)
  | .resolved _ | .underflow => none

/-- The nodes whose evaluation started, in the order of the trace. -/
def startedNodes (trace : List Event) : List (Address × Expr) :=
  trace.filterMap Event.started?

namespace Expr

theorem exists_preorder_eq (e : Expr) (address : Address) :
    ∃ rest, e.preorder address = (address, e) :: rest := by
  cases e <;> exact ⟨_, rfl⟩

theorem preorder_eq {l r : Expr} (hl : e.operand? .left = some l) (hr : e.operand? .right = some r)
    (address : Address) : e.preorder address =
      (address, e) :: (l.preorder (.left :: address) ++ r.preorder (.right :: address)) := by
  cases e with
  | literal | identifier => cases hl
  | member | binary => cases hl; cases hr; rfl

theorem exists_operand_right {l : Expr} (hl : e.operand? .left = some l) :
    ∃ r, e.operand? .right = some r := by
  cases e with
  | literal | identifier => cases hl
  | member base path => exact ⟨path, rfl⟩
  | binary op left right => exact ⟨right, rfl⟩

/-- All addresses in the tree at an address go on from there. -/
theorem suffix_of_mem_preorder {place : Address × Expr} (h : place ∈ e.preorder address) :
    address <:+ place.1 := by
  induction e generalizing address with
  | literal | identifier =>
    obtain rfl := List.mem_singleton.mp h
    exact List.suffix_rfl
  | member _ _ ihl ihr | binary _ _ _ ihl ihr =>
    rcases List.mem_cons.mp h with rfl | h
    · exact List.suffix_rfl
    · rcases List.mem_append.mp h with h | h
      · exact (List.suffix_cons _ _).trans (ihl h)
      · exact (List.suffix_cons _ _).trans (ihr h)

theorem nodup_preorder (e : Expr) (address : Address) :
    ((e.preorder address).map Prod.fst).Nodup := by
  have hbelow {e : Expr} {address place : Address}
      (h : place ∈ (e.preorder address).map Prod.fst) : address <:+ place := by
    obtain ⟨node, hnode, rfl⟩ := List.mem_map.mp h
    exact suffix_of_mem_preorder hnode
  induction e generalizing address with
  | literal | identifier => exact List.nodup_cons.mpr ⟨List.not_mem_nil, List.nodup_nil⟩
  | member _ _ ihl ihr | binary _ _ _ ihl ihr =>
    simp only [preorder, List.map_cons, List.map_append]
    refine List.nodup_cons.mpr ⟨fun hmem => ?_, List.nodup_append.mpr ⟨ihl _, ihr _, ?_⟩⟩
    · -- No address is its own operand's.
      rcases List.mem_append.mp hmem with h | h
      · exact absurd (hbelow h).length_le (Nat.not_succ_le_self _)
      · exact absurd (hbelow h).length_le (Nat.not_succ_le_self _)
    · -- Below the two operands the addresses differ in the step that leads there.
      rintro place hl _ hr rfl
      have hsides := List.suffix_of_suffix_length_le (hbelow hl) (hbelow hr) (Nat.le_refl _)
      cases hsides.eq_of_length rfl

end Expr

theorem startedNodes_append (events trace : List Event) :
    startedNodes (events ++ trace).reverse =
      startedNodes trace.reverse ++ startedNodes events.reverse := by
  rw [List.reverse_append, startedNodes, List.filterMap_append]
  rfl

theorem startedNodes_of_resolved {asked : List Event}
    (h : ∀ event ∈ asked, ∃ name, event = .resolved name) : startedNodes asked.reverse = [] := by
  refine List.filterMap_eq_nil_iff.mpr fun event hevent => ?_
  obtain ⟨name, rfl⟩ := h event (List.mem_reverse.mp hevent)
  rfl

/-- An evaluation adds its own entry to the trace and those of nodes below it, in their order. -/
theorem exists_started (world : World σ) (e : Expr) (address : Address) (n : Interpreter σ) :
    ∃ events, (evaluateAt world e address n).2.trace =
        events ++ .entered address n.frames e :: n.trace ∧
      ((address, e) :: startedNodes events.reverse).Sublist (e.preorder address) := by
  induction e using Expr.operand_induction generalizing address n with
  | h e ih =>
    have hcourse := evaluateAt_course world e address n
    generalize (evaluateAt world e address n).2.trace = trace at hcourse
    cases hcourse with
    | @leaf asked _ hasked =>
      obtain ⟨rest, hpre⟩ := e.exists_preorder_eq address
      rw [hpre]
      refine ⟨asked, rfl, ?_⟩
      rw [startedNodes_of_resolved hasked]
      exact (List.nil_sublist rest).cons_cons _
    | @stopped l n₁ hleft =>
      obtain ⟨r, hr⟩ := Expr.exists_operand_right hleft.operand_eq
      obtain ⟨events, htrace, hsub⟩ := ih _ _ hleft.operand_eq (.left :: address) n₁
      refine ⟨events ++ [.entered (.left :: address) n₁.frames l], ?_, ?_⟩
      · rw [htrace, hleft.trace_left, ← List.append_cons]
      · rw [startedNodes_append, Expr.preorder_eq hleft.operand_eq hr]
        exact (hsub.trans (List.sublist_append_left _ _)).cons_cons _
    | @through l r n₁ n₂ hleft hright hbetween =>
      obtain ⟨events, htrace, hsub⟩ := ih _ _ hleft.operand_eq (.left :: address) n₁
      obtain ⟨events', htrace', hsub'⟩ := ih _ _ hright.operand_eq (.right :: address) n₂
      refine ⟨(events' ++ [.entered (.right :: address) n₂.frames r]) ++
        (events ++ [.entered (.left :: address) n₁.frames l]), ?_, ?_⟩
      · rw [htrace', hbetween, htrace, hleft.trace_left, List.append_assoc, List.append_assoc,
          List.append_assoc]
        rfl
      · rw [startedNodes_append, startedNodes_append, startedNodes_append,
          Expr.preorder_eq hleft.operand_eq hright.operand_eq]
        exact (hsub.append hsub').cons_cons _

namespace Arrives

/-- A node that is arrived at is the one at its address. -/
theorem node?_eq (h : Arrives world root m address e n) : root.node? address = some e := by
  induction h with
  | root => rfl
  | step _ hs ih => exact (Expr.node?_cons ih _).trans hs.operand_eq

/-- There is one arrival at an address at most. -/
theorem unique (h : Arrives world root m address e n) (h' : Arrives world root m address e' n') :
    e = e' ∧ n = n' := by
  induction h generalizing e' n' with
  | root =>
    cases h'
    exact ⟨rfl, rfl⟩
  | step _ hs ih =>
    cases h' with
    | step h' hs' =>
      obtain ⟨rfl, rfl⟩ := ih h'
      exact hs.unique hs'

/-- The trace of a node that is arrived at is part of the trace of the whole evaluation. -/
theorem trace_suffix (h : Arrives world root m address e n) :
    (evaluateAt world e address n).2.trace <:+ (m.evaluate world root).2.trace := by
  induction h with
  | root => exact List.suffix_rfl
  | @step address e e' n n' side _ hs ih =>
    refine List.IsSuffix.trans ?_ ih
    have hcourse := evaluateAt_course world e address n
    generalize (evaluateAt world e address n).2.trace = trace at hcourse
    cases hcourse with
    | leaf hnone => exact absurd (hs.operand_eq.symm.trans (hnone side)) nofun
    | stopped hleft hnot =>
      cases side with
      | left =>
        obtain ⟨rfl, rfl⟩ := hs.unique hleft
        exact List.suffix_rfl
      | right => exact absurd hs (hnot _ _)
    | @through l r n₁ n₂ hleft hright hbetween =>
      cases side with
      | left =>
        obtain ⟨rfl, rfl⟩ := hs.unique hleft
        obtain ⟨events, htrace, -⟩ := exists_started world r (.right :: address) n₂
        rw [htrace, hbetween]
        exact (List.suffix_cons _ _).trans (List.suffix_append _ _)
      | right =>
        obtain ⟨rfl, rfl⟩ := hs.unique hright
        exact List.suffix_rfl

end Arrives

/-- If the event is an entry, the node is arrived at with its frames. -/
def Event.Arrived (world : World σ) (root : Expr) (m : Interpreter σ) : Event → Prop
  | .entered address frames e => ∃ n, Arrives world root m address e n ∧ n.frames = frames
  | .resolved _ | .underflow => True

/-- What a node that is arrived at adds to the trace are arrivals. -/
theorem Arrives.arrived_of_mem (h : Arrives world root m address e n) {event : Event}
    (hevent : event ∈ (evaluateAt world e address n).2.trace) :
    event ∈ n.trace ∨ event.Arrived world root m := by
  induction e using Expr.operand_induction generalizing address n with
  | h e ih =>
    have hcourse := evaluateAt_course world e address n
    generalize (evaluateAt world e address n).2.trace = trace at hcourse hevent
    have hentered : event ∈ Event.entered address n.frames e :: n.trace →
        event ∈ n.trace ∨ event.Arrived world root m := by
      intro hmem
      rcases List.mem_cons.mp hmem with rfl | hmem
      · exact .inr ⟨n, h, rfl⟩
      · exact .inl hmem
    have hafter {l : Expr} {n₁ : Interpreter σ} (hleft : Starts world address n e .left l n₁)
        (hmem : event ∈ (evaluateAt world l (.left :: address) n₁).2.trace) :
        event ∈ n.trace ∨ event.Arrived world root m := by
      rcases ih _ _ hleft.operand_eq (h.step hleft) hmem with hmem | harrived
      · exact hentered (hleft.trace_left ▸ hmem)
      · exact .inr harrived
    cases hcourse with
    | leaf _ hasked =>
      rcases List.mem_append.mp hevent with hmem | hmem
      · obtain ⟨name, rfl⟩ := hasked event hmem
        exact .inr trivial
      · exact hentered hmem
    | stopped hleft => exact hafter hleft hevent
    | through hleft hright hbetween =>
      rcases ih _ _ hright.operand_eq (h.step hright) hevent with hmem | harrived
      · exact hafter hleft (hbetween ▸ hmem)
      · exact .inr harrived

/-- The entries of a trace are the arrivals, each with the frames that the interpreter has there. -/
theorem entered_iff_arrives (world : World σ) (root : Expr) (m : Interpreter σ) (address : Address)
    (frames : Frames) (e : Expr) :
    .entered address frames e ∈ (m.evaluate world root).2.trace ↔
      ∃ n, Arrives world root m address e n ∧ n.frames = frames := by
  constructor
  · intro hmem
    exact (Arrives.root.arrived_of_mem hmem).resolve_left List.not_mem_nil
  · rintro ⟨n, h, rfl⟩
    obtain ⟨events, htrace, -⟩ := exists_started world e address n
    refine h.trace_suffix.subset ?_
    rw [htrace]
    exact List.mem_append_right _ (List.mem_cons_self ..)

end PredicateLang
