import PredicateLang.Program
import PredicateLang.Proofs.Eval.Trace
import PredicateLang.Proofs.Grammar.TreeHeight

/-!
# How deeply evaluation nests

The evaluations that are going on at a time are those of the nodes from the root of the
tree down to the one being evaluated. Each frame above the root frame belongs to one of
these nodes, a member access whose path is being evaluated. So neither the nesting nor
the frames outgrow the height of the tree, and the limit of the parser bounds them both.

An entry of the trace has the frames at the start of an evaluation. A frame is pushed
right before such a start, so no frames in between are deeper.
-/

namespace PredicateLang

namespace Expr

def operand? : Side → Expr → Option Expr
  | .left, .member base _ => some base
  | .right, .member _ path => some path
  | .left, .binary _ left _ => some left
  | .right, .binary _ _ right => some right
  | _, .literal _ | _, .identifier _ => none

/-- The node at an address. -/
def node? (root : Expr) : Address → Option Expr
  | [] => some root
  | side :: address => (root.node? address).bind (operand? side)

/-- The number of member accesses whose path contains the node at an address. -/
def pathsAround (root : Expr) : Address → Nat
  | [] => 0
  | .left :: address => root.pathsAround address
  | .right :: address =>
    match root.node? address with
    | some (.member _ _) => root.pathsAround address + 1
    | _ => root.pathsAround address

variable {root e : Expr} {address : Address}

theorem node?_cons (h : root.node? address = some e) (side : Side) :
    root.node? (side :: address) = operand? side e := by
  rw [node?, h]
  rfl

theorem height_lt_of_operand? {side : Side} {parent : Expr} (h : operand? side parent = some e) :
    e.height < parent.height := by
  cases parent with
  | literal l => cases side <;> cases h
  | identifier name => cases side <;> cases h
  | member base path =>
    cases side <;> cases h <;> simp only [height] <;> omega
  | binary op left right =>
    cases side <;> cases h <;> simp only [height] <;> omega

/-- Below a node there is room for its own height. -/
theorem length_add_height_le (h : root.node? address = some e) :
    address.length + e.height ≤ root.height := by
  induction address generalizing e with
  | nil => cases h; exact Nat.le_of_eq (Nat.zero_add _)
  | cons side address ih =>
    obtain ⟨parent, hparent, hside⟩ := Option.bind_eq_some_iff.mp h
    have hroom := ih hparent
    have hlt := height_lt_of_operand? hside
    simp only [List.length_cons]
    omega

theorem pathsAround_le_length : root.pathsAround address ≤ address.length := by
  induction address with
  | nil => exact Nat.le_refl 0
  | cons side address ih =>
    simp only [List.length_cons]
    cases side with
    | left => simp only [pathsAround]; omega
    | right =>
      simp only [pathsAround]
      split <;> omega

end Expr

/-- The number of evaluations that are going on while the node at the address is evaluated, its
own included. -/
def Address.nesting (address : Address) : Nat :=
  address.length + 1

/-- What is entered is the node at the address, with a frame for each path around it. -/
def Event.InTree (root : Expr) : Event → Prop
  | .entered address frames e =>
    root.node? address = some e ∧ frames.depth = root.pathsAround address + 1
  | .resolved _ | .underflow => True

theorem EvalM.evaluateAt_inTree {σ : Type} (world : World σ) (root e : Expr) (address : Address)
    (frames : Frames) (hnode : root.node? address = some e)
    (hdepth : frames.depth = root.pathsAround address + 1) :
    Traces frames (Event.InTree root) (evaluateAt world e address) := by
  induction e generalizing address frames with
  | literal l => exact (Traces.enter _ _ ⟨hnode, hdepth⟩).bind fun _ => .lift _
  | identifier name =>
    exact (Traces.enter _ _ ⟨hnode, hdepth⟩).bind fun _ => .ask world name trivial
  | member base path ihb ihp =>
    refine (Traces.enter _ _ ⟨hnode, hdepth⟩).bind fun _ => Traces.bind ?_ fun v => .inFrame ?_
    · exact ihb _ _ (Expr.node?_cons hnode .left) hdepth
    · -- The frame that is pushed is the one for the path that is entered.
      refine ihp _ _ (Expr.node?_cons hnode .right) ?_
      change frames.depth + 1 = _
      rw [hdepth, Expr.pathsAround, hnode]
  | binary op left right ihl ihr =>
    refine (Traces.enter _ _ ⟨hnode, hdepth⟩).bind fun _ => .combine op ?_ ?_
    · exact ihl _ _ (Expr.node?_cons hnode .left) hdepth
    · refine ihr _ _ (Expr.node?_cons hnode .right) ?_
      rw [hdepth, Expr.pathsAround, hnode]

/-- Every branch of a parsed tree has fewer nodes than the limit on active rules, by two at least.
Whatever the context and the host, and also when the evaluation fails, what is entered is the node
of the tree at its address; neither the nesting of evaluations nor the number of frames exceeds
the same bound. -/
theorem nesting_lt_of_parseWith (limit : Nat) (source : String) (p : Program)
    (h : (parseWith limit source).result = .ok p) :
    (∀ branch ∈ p.root.branches, branch.length + 1 < limit) ∧
    ∀ (σ : Type) (world : World σ) (context : Value) (state : σ) (address : Address)
      (frames : Frames) (e : Expr),
      .entered address frames e ∈
        ((Interpreter.start context state).evaluate world p.root).2.trace →
      p.root.node? address = some e ∧ frames.depth = p.root.pathsAround address + 1 ∧
        address.nesting + 1 < limit ∧ frames.depth + 1 < limit := by
  have hheight := height_of_parseWith h
  refine ⟨fun branch hbranch => ?_, fun σ world context state address frames e hentered => ?_⟩
  · have hle := Expr.length_le_height hbranch
    omega
  · have htraces := EvalM.evaluateAt_inTree world p.root p.root [] (.start context) rfl rfl
    obtain ⟨-, hevents⟩ := htraces (.start context state) rfl fun _ hnil => by cases hnil
    obtain ⟨hnode, hdepth⟩ := hevents _ hentered
    have hroom := Expr.length_add_height_le hnode
    have hpos := e.height_pos
    have hpaths : p.root.pathsAround address ≤ address.length := p.root.pathsAround_le_length
    have hnesting : address.nesting = address.length + 1 := rfl
    exact ⟨hnode, hdepth, by omega, by omega⟩

/-- A tree with eight nodes in a row takes a limit of ten, so the bound is met. -/
theorem nesting_lt_of_parseWith_ten :
    let path := Expr.member (.identifier "a") (.member (.identifier "b") (.identifier "c"))
    let product := Expr.binary (.arithmetic .times) path (.identifier "d")
    let sum := Expr.binary (.arithmetic .plus) product (.identifier "e")
    let relation := Expr.binary (.relation .equal) sum (.identifier "f")
    let root := Expr.binary .or (.binary .and relation (.identifier "g")) (.identifier "h")
    (parseWith 10 "a.b.c * d + e == f && g || h").result = .ok ⟨root⟩ ∧
      (root.branches.any fun branch => branch.length = 8) = true ∧
      ∀ branch ∈ root.branches, branch.length + 1 < 10 := by
  intro path product sum relation root
  have hparse : (parseWith 10 "a.b.c * d + e == f && g || h").result = .ok ⟨root⟩ := rfl
  obtain ⟨hbranches, -⟩ := nesting_lt_of_parseWith 10 _ _ hparse
  exact ⟨hparse, rfl, hbranches⟩

end PredicateLang
