import PredicateLang.Eval.Interpreter

/-!
# What becomes of the right operand

All operators evaluate their left operand first. Its value either settles the result, or
the right operand is evaluated too and the result is made of both values.
-/

namespace PredicateLang

namespace BinaryOp

/-- What an operator does when its left operand has a value. -/
inductive Outlook where
  /-- The right operand is not evaluated. -/
  | settled (result : Except EvalError Value)
  /-- The result is made of the value of the right operand. -/
  | pending (finish : Value → Except EvalError Value)

/-- What an operator does when its left operand has the value `a`. -/
def afterLeft (op : BinaryOp) (a : Value) : Outlook :=
  match op with
  | .or =>
    match a.toTruth with
    | .ok true => .settled (.ok (.boolean true))
    | .ok false => .pending fun b => b.toTruth.map .boolean
    | .error e => .settled (.error e)
  | .and =>
    match a.toTruth with
    | .ok true => .pending fun b => b.toTruth.map .boolean
    | .ok false => .settled (.ok (.boolean false))
    | .error e => .settled (.error e)
  | .relation r => .pending (r.apply a)
  | .arithmetic op =>
    match a.toNumber with
    | .ok x => .pending fun b => b.toNumber >>= op.apply x
    | .error e => .settled (.error e)

end BinaryOp

namespace EvalM

variable {σ α β : Type}

theorem lift_bind_lift (result : Except EvalError α) (f : α → Except EvalError β) :
    (lift result >>= fun a => lift (f a) : EvalM σ β) = lift (result >>= f) := by
  cases result <;> rfl

/-- The steps of an operator, the same for all operators. -/
theorem combine_eq (op : BinaryOp) (x y : EvalM σ Value) :
    combine op x y = (do
      let a ← x
      match op.afterLeft a with
      | .settled result => lift result
      | .pending finish =>
        let b ← y
        lift (finish b)) := by
  have hright : (do return Value.boolean (← lift (← y).toTruth)) = (do
      let b ← y
      lift (b.toTruth.map .boolean) : EvalM σ Value) := by
    refine bind_congr fun b => ?_
    cases b.toTruth <;> rfl
  cases op with
  | or =>
    refine bind_congr fun a => ?_
    simp only [BinaryOp.afterLeft]
    rcases a.toTruth with e | _ | _
    · rfl
    · exact hright
    · rfl
  | and =>
    refine bind_congr fun a => ?_
    simp only [BinaryOp.afterLeft]
    rcases a.toTruth with e | _ | _
    · rfl
    · rfl
    · exact hright
  | relation r => rfl
  | arithmetic op =>
    refine bind_congr fun a => ?_
    simp only [BinaryOp.afterLeft]
    rcases a.toNumber with e | x
    · rfl
    · exact bind_congr fun (b : Value) => lift_bind_lift b.toNumber (op.apply x)

end EvalM
end PredicateLang
