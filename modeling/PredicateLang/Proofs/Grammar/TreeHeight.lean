import PredicateLang.Proofs.Grammar.Derivation

/-!
# The height of a parsed tree

A tree is built from the bottom up, after the rules that parsed its parts have been
released. Its height is bounded all the same by the rules that were active at a time:
every node but a leaf has a rule of its own above the rules of its operands. Only a
parenthesis spends rules without a node to show for it.
-/

namespace PredicateLang

namespace Expr

/-- The ways from the root of a tree to its leaves, each as the nodes that lie on it. -/
def branches : Expr → List (List Expr)
  | .literal l => [[.literal l]]
  | .identifier name => [[.identifier name]]
  | .member base path => (base.branches ++ path.branches).map (.member base path :: ·)
  | .binary op left right => (left.branches ++ right.branches).map (.binary op left right :: ·)

/-- The number of nodes on the longest branch. -/
def height : Expr → Nat
  | .literal _ | .identifier _ => 1
  | .member base path => max base.height path.height + 1
  | .binary _ left right => max left.height right.height + 1

theorem height_pos (e : Expr) : 0 < e.height := by
  cases e <;> simp [height]

theorem length_le_height {e : Expr} {branch : List Expr} (h : branch ∈ e.branches) :
    branch.length ≤ e.height := by
  induction e generalizing branch with
  | literal l => rw [List.mem_singleton.mp h]; exact Nat.le_refl 1
  | identifier name => rw [List.mem_singleton.mp h]; exact Nat.le_refl 1
  | member base path ihb ihp =>
    obtain ⟨below, hbelow, rfl⟩ := List.mem_map.mp h
    simp only [List.length_cons, height]
    rcases List.mem_append.mp hbelow with hb | hp
    · have hle := ihb hb; omega
    · have hle := ihp hp; omega
  | binary op left right ihl ihr =>
    obtain ⟨below, hbelow, rfl⟩ := List.mem_map.mp h
    simp only [List.length_cons, height]
    rcases List.mem_append.mp hbelow with hl | hr
    · have hle := ihl hl; omega
    · have hle := ihr hr; omega

end Expr

variable {b : Nat} {r : Rule} {s s' : Stream' Token} {e : Expr}

theorem TokenKind.height_of_primary? {k : TokenKind} (h : k.primary? = some e) : e.height = 1 := by
  cases primary?_eq_some_iff.mp h <;> rfl

namespace Accepts

theorem budget_pos (h : Accepts b r s e s') : 0 < b := by
  cases h <;> exact Nat.succ_pos _

/-- A tree has fewer nodes on a branch than there are rules to go, a lone leaf at the last rule
excepted. -/
theorem height_lt (h : Accepts b r s e s') : e.height < b ∨ r = .primary ∧ e.height = 1 := by
  induction h with
  | expression _ ih =>
    obtain hlt | ⟨hr, -⟩ := ih
    · exact .inl (by omega)
    · cases hr
  | @operand b s e s' l hl _ _ ih =>
    have hpos := hl.budget_pos
    left
    obtain hlt | ⟨-, hleaf⟩ := ih <;> omega
  | @binary b s left s₁ right s₂ l op hl _ hr ihl ihr =>
    -- The right operand is of the same level, so it is not a leaf at the last rule.
    have hright : right.height < b := ihr.resolve_right fun h => by cases h.1
    have hpos := right.height_pos
    left
    simp only [Expr.height]
    obtain hlt | ⟨-, hleaf⟩ := ihl <;> omega
  | @base b s e s' hb _ _ ih =>
    have hpos := hb.budget_pos
    left
    obtain hlt | ⟨-, hleaf⟩ := ih <;> omega
  | @member b s base s₁ path s₂ hb _ hp _ ihb ihp =>
    have hpath : path.height < b := ihp.resolve_right fun h => by cases h.1
    have hpos := path.height_pos
    left
    simp only [Expr.height]
    obtain hlt | ⟨-, hleaf⟩ := ihb <;> omega
  | atom he => exact .inr ⟨rfl, TokenKind.height_of_primary? he⟩
  | group _ _ _ ih =>
    obtain hlt | ⟨hr, -⟩ := ih
    · exact .inl (by omega)
    · cases hr

/-- The rule for whole expressions contributes no node. -/
theorem height_add_one_lt (h : Accepts b .expression s e s') : e.height + 1 < b := by
  cases h with
  | expression h =>
    have hlt := h.height_lt.resolve_right fun h => by cases h.1
    omega

end Accepts

theorem height_of_parseWith {limit : Nat} {source : String} {p : Program}
    (h : (parseWith limit source).result = .ok p) : p.root.height + 1 < limit := by
  obtain ⟨s', ha, -⟩ := accepts_of_parseWith h
  exact ha.height_add_one_lt

end PredicateLang
