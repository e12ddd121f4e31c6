import PredicateLang.Proofs.Eval.Interchange
import PredicateLang.Proofs.Grammar.Derivation

/-!
# Chains of one logical operator

A logical operator looks at the truth of its operands only. Operands are asked for it one
after another until one settles the matter or fails, and a node above asks a node below for
nothing more than that. So the truth of a chain is that of its list of operands, however
the nodes of the chain are nested.
-/

namespace PredicateLang

variable {σ : Type}

/-- The logical operator that an operand of this truth settles. -/
def BinaryOp.settledBy : Bool → BinaryOp
  | true => .or
  | false => .and

namespace AskM

/-- Asks for a second truth only if the first one is not `t`. -/
def shortCircuit (t : Bool) (x y : AskM σ Bool) : AskM σ Bool := do
  let u ← x
  if u = t then pure t else y

theorem shortCircuit_assoc (t : Bool) (x y z : AskM σ Bool) :
    shortCircuit t (shortCircuit t x y) z = shortCircuit t x (shortCircuit t y z) := by
  unfold shortCircuit
  rw [bind_assoc]
  refine bind_congr fun u => ?_
  by_cases hu : u = t
  · rw [if_pos hu, if_pos hu, pure_bind, if_pos rfl]
  · rw [if_neg hu, if_neg hu]

/-- A truth that does not settle anything changes nothing in front. -/
theorem shortCircuit_pure_left (t : Bool) (y : AskM σ Bool) :
    shortCircuit t (pure !t) y = y := by
  unfold shortCircuit
  rw [pure_bind, if_neg (by cases t <;> decide)]

theorem shortCircuit_pure_right (t : Bool) (x : AskM σ Bool) :
    shortCircuit t x (pure !t) = x := by
  unfold shortCircuit
  refine (bind_congr fun u => ?_).trans (bind_pure x)
  cases u <;> cases t <;> rfl

end AskM

/-- The truth of an expression against a base value. -/
def truthAgainst (world : World σ) (e : Expr) (base : Value) : AskM σ Bool := do
  let v ← evaluateAgainst world e base
  AskM.lift v.toTruth

/-- The truth of a list of operands: that of the first one that settles it, or else the other one.
-/
def truthOfAll (world : World σ) (t : Bool) (base : Value) : List Expr → AskM σ Bool
  | [] => pure !t
  | e :: es => AskM.shortCircuit t (truthAgainst world e base) (truthOfAll world t base es)

theorem truthOfAll_append (world : World σ) (t : Bool) (base : Value) (es es' : List Expr) :
    truthOfAll world t base (es ++ es') =
      AskM.shortCircuit t (truthOfAll world t base es) (truthOfAll world t base es') := by
  induction es with
  | nil => exact (AskM.shortCircuit_pure_left t _).symm
  | cons e es ih => rw [List.cons_append, truthOfAll, truthOfAll, ih, AskM.shortCircuit_assoc]

/-- A node of a logical operator yields the truth that its operands have together. -/
theorem evaluateAgainst_settledBy (world : World σ) (t : Bool) (left right : Expr) (base : Value) :
    evaluateAgainst world (.binary (.settledBy t) left right) base =
      Value.boolean <$>
        AskM.shortCircuit t (truthAgainst world left base) (truthAgainst world right base) := by
  have hright : (do
      let b ← evaluateAgainst world right base
      return Value.boolean (← AskM.lift b.toTruth)) =
        Value.boolean <$> truthAgainst world right base := by
    rw [truthAgainst, map_bind]
    exact bind_congr fun b => (map_eq_pure_bind Value.boolean (AskM.lift b.toTruth)).symm
  rw [AskM.shortCircuit, truthAgainst, map_bind, bind_assoc]
  cases t with
  | true =>
    refine bind_congr fun a => bind_congr fun u => ?_
    cases u with
    | true => rfl
    | false => exact hright
  | false =>
    refine bind_congr fun a => bind_congr fun u => ?_
    cases u with
    | true => exact hright
    | false => rfl

theorem truthAgainst_settledBy (world : World σ) (t : Bool) (left right : Expr) (base : Value) :
    truthAgainst world (.binary (.settledBy t) left right) base =
      AskM.shortCircuit t (truthAgainst world left base) (truthAgainst world right base) := by
  rw [truthAgainst, evaluateAgainst_settledBy, bind_map_left]
  exact bind_pure _

namespace Expr

/-- The tree combines the operands, in this order, by nodes of one operator alone. -/
inductive Combines (op : BinaryOp) : List Expr → Expr → Prop
  | single (e : Expr) : Combines op [e] e
  | node {es es' : List Expr} {left right : Expr} : Combines op es left → Combines op es' right →
      Combines op (es ++ es') (.binary op left right)

/-- The operands nested to the right. -/
def nestRight (op : BinaryOp) (first : Expr) : List Expr → Expr
  | [] => first
  | next :: rest => .binary op first (nestRight op next rest)

/-- The operands nested to the left. -/
def nestLeft (op : BinaryOp) (first : Expr) (rest : List Expr) : Expr :=
  rest.foldl (.binary op) first

namespace Combines

variable {op : BinaryOp} {es : List Expr} {e e' : Expr}

theorem ne_nil (h : Combines op es e) : es ≠ [] := by
  induction h with
  | single => exact List.cons_ne_nil _ _
  | node _ _ ih => exact List.append_ne_nil_of_left_ne_nil ih _

/-- One operand is combined with nothing. -/
theorem eq_of_singleton {x : Expr} (h : Combines op [x] e) : e = x := by
  generalize hes : [x] = es at h
  cases h with
  | single => exact (List.singleton_inj.mp hes).symm
  | node hl hr =>
    rcases List.append_eq_singleton_iff.mp hes.symm with ⟨hnil, -⟩ | ⟨-, hnil⟩
    · exact absurd hnil hl.ne_nil
    · exact absurd hnil hr.ne_nil

/-- Several operands are combined by a node. -/
theorem exists_eq_binary (h : Combines op es e) (hes : ∀ x, es ≠ [x]) :
    ∃ left right, e = .binary op left right := by
  cases h with
  | single e => exact absurd rfl (hes e)
  | node => exact ⟨_, _, rfl⟩

theorem nestRight (op : BinaryOp) (first : Expr) (rest : List Expr) :
    Combines op (first :: rest) (Expr.nestRight op first rest) := by
  induction rest generalizing first with
  | nil => exact .single first
  | cons next rest ih => exact .node (.single first) (ih next)

theorem nestLeft (h : Combines op es e) (rest : List Expr) :
    Combines op (es ++ rest) (Expr.nestLeft op e rest) := by
  induction rest generalizing es e with
  | nil => rwa [List.append_nil]
  | cons next rest ih =>
    rw [List.append_cons]
    exact ih (.node h (.single next))

theorem truthAgainst_eq {t : Bool} (h : Combines (.settledBy t) es e) (world : World σ)
    (base : Value) : truthAgainst world e base = truthOfAll world t base es := by
  induction h with
  | single e => exact (AskM.shortCircuit_pure_right t _).symm
  | node _ _ ihl ihr => rw [truthAgainst_settledBy, ihl, ihr, truthOfAll_append]

/-- What two combinations of the same operands yield is the operand itself if there is one alone,
and the truth of the operands otherwise. -/
theorem interchangeable {t : Bool} (h : Combines (.settledBy t) es e)
    (h' : Combines (.settledBy t) es e') : e.Interchangeable e' := by
  refine .of_evaluateAgainst fun world => ?_
  by_cases hone : ∃ x, es = [x]
  · obtain ⟨x, rfl⟩ := hone
    rw [h.eq_of_singleton, h'.eq_of_singleton]
  · have hes : ∀ x, es ≠ [x] := fun x hx => hone ⟨x, hx⟩
    have htruth (base : Value) : truthAgainst world e base = truthAgainst world e' base := by
      rw [h.truthAgainst_eq, h'.truthAgainst_eq]
    obtain ⟨left, right, rfl⟩ := h.exists_eq_binary hes
    obtain ⟨left', right', rfl⟩ := h'.exists_eq_binary hes
    funext base
    rw [evaluateAgainst_settledBy, evaluateAgainst_settledBy, ← truthAgainst_settledBy,
      ← truthAgainst_settledBy, htruth]

end Combines
end Expr

/-- Operands of a level with one of its operators between them are read with the operands nested
to the right. -/
theorem Derives.nestRight {l : Level} {r : Rule} {c : Symbol} {op : BinaryOp}
    (hb : l.BuiltOver r) (hw : l.Writes c op) (first : List TokenKind × Expr)
    (rest : List (List TokenKind × Expr)) (h : ∀ o ∈ first :: rest, Derives r o.1 o.2) :
    Derives (.level l) (first.1 ++ rest.flatMap fun o => .symbol c :: o.1)
      (Expr.nestRight op first.2 (rest.map Prod.snd)) := by
  induction rest generalizing first with
  | nil =>
    rw [List.flatMap_nil, List.append_nil]
    exact .operand hb (h first (List.mem_singleton_self first))
  | cons next rest ih =>
    obtain ⟨hfirst, hrest⟩ := List.forall_mem_cons.mp h
    exact .binary hb hfirst hw (ih next hrest)

/-- The logical operators are those that a truth settles. Operands that are combined by one of them
alone, in one order, make the same of every evaluation, however the nodes are nested: the trees
have the same results and ask the host the same questions in the same order. So it does not matter
that the grammar nests the operands of a chain to the right. -/
theorem interchangeable_of_combines (t : Bool) :
    (∀ es e e', Expr.Combines (.settledBy t) es e → Expr.Combines (.settledBy t) es e' →
      e.Interchangeable e') ∧
    (∀ first rest, (Expr.nestRight (.settledBy t) first rest).Interchangeable
      (Expr.nestLeft (.settledBy t) first rest)) ∧
    ∀ l r c, Level.BuiltOver l r → Level.Writes l c (.settledBy t) →
      ∀ (first : List TokenKind × Expr) (rest : List (List TokenKind × Expr)),
        (∀ o ∈ first :: rest, Derives r o.1 o.2) →
        Derives (.level l) (first.1 ++ rest.flatMap fun o => .symbol c :: o.1)
          (Expr.nestRight (.settledBy t) first.2 (rest.map Prod.snd)) := by
  refine ⟨fun es e e' h h' => h.interchangeable h', fun first rest => ?_,
    fun l r c hb hw first rest h => .nestRight hb hw first rest h⟩
  exact (Expr.Combines.nestRight _ first rest).interchangeable
    ((Expr.Combines.single first).nestLeft rest)

/-- Of three names the second has no truth. Both ways to nest them fail there, and neither asks for
the third. -/
theorem interchangeable_of_combines_names :
    let names := [Expr.identifier "a", .identifier "b", .identifier "c"]
    let e := Expr.binary .or (.identifier "a") (.binary .or (.identifier "b") (.identifier "c"))
    let e' := Expr.binary .or (.binary .or (.identifier "a") (.identifier "b")) (.identifier "c")
    let world : World Nat := fun _ => .resolver fun _ n =>
      (.ok (if n = 0 then .integer 0 else .string "no"), n + 1)
    let m := Interpreter.start (.host ⟨7, "resolver"⟩) 0
    Expr.Combines .or names e ∧ Expr.Combines .or names e' ∧
      (m.evaluate world e).1 = .error (.notBoolean (.string "no")) ∧
      (m.evaluate world e').1 = .error (.notBoolean (.string "no")) ∧
      (m.evaluate world e').2.state = 2 := by
  intro names e e' world m
  have h : Expr.Combines (.settledBy true) names e :=
    .nestRight _ (.identifier "a") [.identifier "b", .identifier "c"]
  have h' : Expr.Combines (.settledBy true) names e' :=
    (Expr.Combines.single (.identifier "a")).nestLeft [.identifier "b", .identifier "c"]
  obtain ⟨hsame, -⟩ := interchangeable_of_combines true
  have hfails : (m.evaluate world e).1 = .error (.notBoolean (.string "no")) := rfl
  have htwo : (m.evaluate world e).2.state = 2 := rfl
  have hresult := (hsame names e e' h h').result world m
  have hstate := (hsame names e e' h h').state world m
  exact ⟨h, h', hfails, hresult.symm.trans hfails, hstate.symm.trans htwo⟩

end PredicateLang
