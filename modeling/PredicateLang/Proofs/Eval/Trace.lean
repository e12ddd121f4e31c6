import PredicateLang.Proofs.Eval.Operand

/-!
# What evaluation records

Every step of an evaluation restores the frames that it starts from, and a property of
its events that depends on these frames can be proved step by step. A member access is
the one step whose parts start from different frames.
-/

namespace PredicateLang

namespace EvalM

variable {σ α β : Type} {frames : Frames} {Q : Event → Prop}

/-- From these frames, the step restores them and adds only events that satisfy `Q`. -/
def Traces (frames : Frames) (Q : Event → Prop) (x : EvalM σ α) : Prop :=
  ∀ m, m.frames = frames → (∀ event ∈ m.trace, Q event) →
    (x m).2.frames = frames ∧ ∀ event ∈ (x m).2.trace, Q event

namespace Traces

theorem lift (result : Except EvalError α) : Traces frames Q (EvalM.lift result : EvalM σ α) :=
  fun _ hf ht => ⟨hf, ht⟩

theorem ask (world : World σ) (name : String) (h : Q (.resolved name)) :
    Traces frames Q (EvalM.ask world name) :=
  fun _ hf ht => ⟨hf, List.forall_mem_cons.mpr ⟨h, ht⟩⟩

theorem enter (address : Address) (e : Expr) (h : Q (.entered address frames e)) :
    Traces frames Q (EvalM.enter address e : EvalM σ Unit) := by
  intro m hf ht
  refine ⟨hf, List.forall_mem_cons.mpr ⟨?_, ht⟩⟩
  rw [hf]
  exact h

theorem bind {x : EvalM σ α} {k : α → EvalM σ β} (h : Traces frames Q x)
    (hk : ∀ a, Traces frames Q (k a)) : Traces frames Q (x >>= k) := by
  intro m hf ht
  obtain ⟨hf', ht'⟩ := h m hf ht
  rw [bind_apply]
  rcases hx : x m with ⟨e | a, m'⟩
  · rw [hx] at hf' ht'
    exact ⟨hf', ht'⟩
  · rw [hx] at hf' ht'
    exact hk a m' hf' ht'

theorem inFrame {x : EvalM σ α} {base : Value} (h : Traces (frames.push base) Q x) :
    Traces frames Q (EvalM.inFrame base x) := by
  intro m hf ht
  obtain ⟨hf', ht'⟩ := h { m with frames := m.frames.push base } (by rw [hf]) ht
  change ((x { m with frames := m.frames.push base }).2.leave).frames = frames ∧
    ∀ event ∈ ((x { m with frames := m.frames.push base }).2.leave).trace, Q event
  rw [Interpreter.leave, hf', Frames.pop?_push]
  exact ⟨rfl, ht'⟩

theorem combine {x y : EvalM σ Value} (op : BinaryOp) (hx : Traces frames Q x)
    (hy : Traces frames Q y) : Traces frames Q (EvalM.combine op x y) := by
  rw [combine_eq]
  refine hx.bind fun a => ?_
  cases op.afterLeft a with
  | settled result => exact lift _
  | pending finish => exact hy.bind fun b => lift _

end Traces

end EvalM
end PredicateLang
