import Mathlib.Data.List.Forall2
import PredicateLang.Log
import PredicateLang.Proofs.Eval.Arrival

/-!
# The bases of the enclosing dots

When the evaluation of a node starts, the frames above those of the start belong to the
member accesses that have the node in their path. Each of them contributes the value of its
base in the same run. Which frames a node finds is therefore a matter of its place in the
tree, and an operator finds the frames that its operands find.
-/

namespace PredicateLang

variable {σ : Type}

/-- The member accesses whose path contains the node at an address, the outermost first. -/
def Expr.accessesAround (root : Expr) : Address → List Address
  | [] => []
  | .left :: address => root.accessesAround address
  | .right :: address =>
    match root.node? address with
    | some (.member _ _) => root.accessesAround address ++ [address]
    | _ => root.accessesAround address

/-- In the evaluation of `root` from `m`, the node at an address has this value. -/
def Yields (world : World σ) (root : Expr) (m : Interpreter σ) (address : Address) (v : Value) :
    Prop :=
  ∃ e n, Arrives world root m address e n ∧ (evaluateAt world e address n).1 = .ok v

variable {world : World σ} {root : Expr} {m : Interpreter σ} {address : Address}

namespace Expr

theorem accessesAround_path {base path : Expr} (h : root.node? address = some (.member base path)) :
    root.accessesAround (.right :: address) = root.accessesAround address ++ [address] := by
  rw [accessesAround, h]

theorem accessesAround_operand {op : BinaryOp} {l r : Expr}
    (h : root.node? address = some (.binary op l r)) (side : Side) :
    root.accessesAround (side :: address) = root.accessesAround address := by
  cases side with
  | left => rfl
  | right => rw [accessesAround, h]

/-- An access is around the nodes that its right operand leads to. -/
theorem mem_accessesAround {access : Address} : access ∈ root.accessesAround address ↔
    (∃ base path, root.node? access = some (.member base path)) ∧ .right :: access <:+ address := by
  induction address with
  | nil =>
    constructor
    · exact nofun
    · exact fun h => absurd (List.suffix_nil.mp h.2) (List.cons_ne_nil _ _)
  | cons side address ih =>
    rw [List.suffix_cons_iff, List.cons_eq_cons]
    cases side with
    | left => simp [accessesAround, ih]
    | right =>
      rw [accessesAround]
      split
      · rename_i base path hnode
        rw [List.mem_append, ih, List.mem_singleton]
        constructor
        · rintro (⟨hmember, hsuffix⟩ | rfl)
          · exact ⟨hmember, .inr hsuffix⟩
          · exact ⟨⟨base, path, hnode⟩, .inl ⟨rfl, rfl⟩⟩
        · rintro ⟨hmember, ⟨-, rfl⟩ | hsuffix⟩
          · exact .inr rfl
          · exact .inl ⟨hmember, hsuffix⟩
      · rename_i hnot
        rw [ih]
        refine and_congr_right fun ⟨base, path, hnode⟩ => ⟨.inr, fun h => h.resolve_left ?_⟩
        rintro ⟨-, rfl⟩
        exact hnot base path hnode

/-- The accesses around a node are listed from the root down. -/
theorem pairwise_accessesAround (root : Expr) (address : Address) :
    (root.accessesAround address).Pairwise fun a b => a.length < b.length := by
  induction address with
  | nil => exact .nil
  | cons side address ih =>
    cases side with
    | left => exact ih
    | right =>
      rw [accessesAround]
      split
      · refine List.pairwise_append.mpr ⟨ih, List.pairwise_singleton _ _, fun a ha b hb => ?_⟩
        rw [List.mem_singleton.mp hb]
        exact (mem_accessesAround.mp ha).2.length_le
      · exact ih

end Expr

theorem Yields.unique {v w : Value} (h : Yields world root m address v)
    (h' : Yields world root m address w) : v = w := by
  obtain ⟨e, n, harrives, hv⟩ := h
  obtain ⟨e', n', harrives', hw⟩ := h'
  obtain ⟨rfl, rfl⟩ := harrives.unique harrives'
  exact Except.ok.inj (hv.symm.trans hw)

/-- Where a node is arrived at, the frames are those of the start and the bases of the accesses
around the node. -/
theorem Arrives.exists_bases {e : Expr} {n : Interpreter σ}
    (h : Arrives world root m address e n) :
    ∃ bases, List.Forall₂ (fun access v => Yields world root m (.left :: access) v)
        (root.accessesAround address) bases ∧
      n.frames.toList = m.frames.toList ++ bases := by
  induction h with
  | root => exact ⟨[], .nil, (List.append_nil _).symm⟩
  | @step address e e' n n' side h hs ih =>
    obtain ⟨bases, hbases, hframes⟩ := ih
    cases hs with
    | left => exact ⟨bases, hbases, hframes⟩
    | @path base path v n' hv =>
      have hyields : Yields world root m (.left :: address) v :=
        ⟨base, _, h.step (.left rfl), by rw [hv]⟩
      refine ⟨bases ++ [v], ?_, ?_⟩
      · rw [Expr.accessesAround_path h.node?_eq]
        exact List.rel_append hbases (.cons hyields .nil)
      · rw [Frames.toList_push, frames_of_evaluateAt hv]
        exact (congrArg (· ++ [v]) hframes).trans (List.append_assoc ..)
    | right hv hnext =>
      refine ⟨bases, ?_, ?_⟩
      · rwa [Expr.accessesAround_operand h.node?_eq]
      · rwa [Starts.frames_eq (.right hv hnext)]

theorem mem_trace_run {event : Event} :
    event ∈ (m.run world root).1.trace ↔ event ∈ (m.evaluate world root).2.trace :=
  List.mem_reverse

theorem startedNodes_run_sublist (world : World σ) (root : Expr) (m : Interpreter σ) :
    (startedNodes (m.run world root).1.trace).Sublist (root.preorder []) := by
  obtain ⟨events, htrace, hsub⟩ := exists_started world root [] { m with trace := [] }
  have hrun : (m.run world root).1.trace =
      (events ++ [Event.entered [] m.frames root]).reverse := congrArg List.reverse htrace
  rw [hrun, startedNodes_append]
  exact hsub

/-- The operands of an operator are entered with the frames of the operator. -/
theorem frames_operand_eq {frames frames' : Frames} {op : BinaryOp} {l r e : Expr} {side : Side}
    (h : .entered address frames (.binary op l r) ∈ (m.run world root).1.trace)
    (h' : .entered (side :: address) frames' e ∈ (m.run world root).1.trace) :
    frames' = frames := by
  obtain ⟨n, harrives, rfl⟩ := (entered_iff_arrives ..).mp (mem_trace_run.mp h)
  obtain ⟨n', harrives', rfl⟩ := (entered_iff_arrives ..).mp (mem_trace_run.mp h')
  cases harrives' with
  | step hparent hs =>
    obtain ⟨rfl, rfl⟩ := hparent.unique harrives
    exact hs.frames_eq

/-- In every run of every tree, from any frames and in any world: each node starts at most once, and
the nodes start in the order in which they stand before their operands. At its start a node finds
the frames of the interpreter and on top of them, from the outermost to the innermost, one frame
for each member access that has the node in its right operand: the value that the left operand of
this access has in the run, where no node has two. The record of the start names these frames. The
operands of an operator find the same frames as the operator. What a node yields is asked of the
evaluations in the run, and these are the ones that the trace enters. -/
theorem frames_of_entered (world : World σ) (root : Expr) (m : Interpreter σ) :
    let run := (m.run world root).1
    ((startedNodes run.trace).Sublist (root.preorder []) ∧
      ((startedNodes run.trace).map Prod.fst).Nodup) ∧
    (∀ address frames e, .entered address frames e ∈ run.trace ↔
      ∃ n, Arrives world root m address e n ∧ n.frames = frames) ∧
    (∀ address frames e, .entered address frames e ∈ run.trace →
      ∃ bases, List.Forall₂ (fun access v => Yields world root m (.left :: access) v)
          (root.accessesAround address) bases ∧
        frames.toList = m.frames.toList ++ bases ∧
        (Log.entered frames e).message = "[" ++ String.intercalate ", "
          ((m.frames.toList ++ bases).map fun v => Text.quoted v.typeName) ++ "]" ++ " <- " ++
            e.text) ∧
    (∀ address, (root.accessesAround address).Pairwise (fun a b => a.length < b.length) ∧
      ∀ access, access ∈ root.accessesAround address ↔
        (∃ base path, root.node? access = some (.member base path)) ∧
          .right :: access <:+ address) ∧
    (∀ address v w, Yields world root m address v → Yields world root m address w → v = w) ∧
    ∀ address frames op l r side frames' e, .entered address frames (.binary op l r) ∈ run.trace →
      .entered (side :: address) frames' e ∈ run.trace → frames' = frames := by
  intro run
  have hsub : (startedNodes run.trace).Sublist (root.preorder []) :=
    startedNodes_run_sublist world root m
  have hiff (address : Address) (frames : Frames) (e : Expr) :
      .entered address frames e ∈ run.trace ↔
        ∃ n, Arrives world root m address e n ∧ n.frames = frames :=
    mem_trace_run.trans (entered_iff_arrives world root m address frames e)
  refine ⟨⟨hsub, (hsub.map Prod.fst).nodup (root.nodup_preorder [])⟩, hiff, ?_,
    fun address => ⟨root.pairwise_accessesAround address, fun access => Expr.mem_accessesAround⟩,
    fun address v w hv hw => hv.unique hw,
    fun address frames op l r side frames' e h h' => frames_operand_eq h h'⟩
  intro address frames e hentered
  obtain ⟨n, harrives, rfl⟩ := (hiff address frames e).mp hentered
  obtain ⟨bases, hbases, hframes⟩ := harrives.exists_bases
  refine ⟨bases, hbases, hframes, ?_⟩
  rw [← hframes]
  rfl

/-- In `a.b.c` the last name finds the context, the value of `a` and the value of `b`. -/
theorem frames_of_entered_path :
    let b := Value.map ⟨0, ["b", "a"]⟩ [("c", .boolean true)]
    let a := Value.map ⟨0, ["a"]⟩ [("b", b)]
    let context := Value.map ⟨0, []⟩ [("a", a)]
    let e := Expr.member (.identifier "a") (.member (.identifier "b") (.identifier "c"))
    let m : Interpreter Unit := .start context ()
    let world : World Unit := fun ref => .bare ref.typeName
    .entered [.right, .right] ⟨context, [b, a]⟩ (.identifier "c") ∈ (m.run world e).1.trace ∧
      e.accessesAround [.right, .right] = [[], [.right]] ∧
      Yields world e m [.left] a ∧ Yields world e m [.left, .right] b := by
  intro b a context e m world
  have hentered : .entered [.right, .right] ⟨context, [b, a]⟩ (.identifier "c") ∈
      (m.run world e).1.trace := by
    have hseventh : (m.run world e).1.trace[6]? =
        some (.entered [.right, .right] ⟨context, [b, a]⟩ (.identifier "c")) := rfl
    exact List.mem_of_getElem? hseventh
  obtain ⟨-, -, hbases, -⟩ := frames_of_entered world e m
  obtain ⟨bases, hyields, hframes, -⟩ := hbases _ _ _ hentered
  obtain rfl : [a, b] = bases := (List.cons.inj hframes).2
  cases hyields with
  | cons ha hrest =>
    cases hrest with
    | cons hb _ => exact ⟨hentered, rfl, ha, hb⟩

end PredicateLang
