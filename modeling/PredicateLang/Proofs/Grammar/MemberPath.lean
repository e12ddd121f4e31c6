import PredicateLang.Proofs.Grammar.Derivation

/-!
# Paths of member access

What the grammar admits right of a dot. The check that follows a path looks at
the root of its tree only, and the root is an access whenever the path has a dot
of its own. So every path is a name or an access, but it need not be a chain of
names: a literal or a parenthesised expression may stand in it, as long as
another dot follows. Which sources have such paths can be told from their tokens.
-/

namespace PredicateLang

namespace Expr

/-- Whether the tree consists of names and member accesses. -/
def isChain : Expr → Bool
  | .identifier _ => true
  | .member base path => base.isChain && path.isChain
  | .literal _ | .binary _ _ _ => false

/-- The paths of all member accesses in the tree. -/
def paths : Expr → List Expr
  | .literal _ | .identifier _ => []
  | .member base path => path :: (base.paths ++ path.paths)
  | .binary _ left right => left.paths ++ right.paths

end Expr

namespace TokenKind

/-- Whether a chain of names may contain the token. -/
def inChain : TokenKind → Bool
  | .identifier _ | .symbol .dot | .symbol .leftParen | .symbol .rightParen => true
  | _ => false

/-- The number of open parentheses after the token. -/
def nesting (opened : Nat) : TokenKind → Nat
  | .symbol .leftParen => opened + 1
  | .symbol .rightParen => opened - 1
  | _ => opened

end TokenKind

/-- Whether the operand at the front, of which so many parentheses are open, goes on as a chain of
names. The operand is over where no parenthesis is open after a token. -/
def operandIsChain (opened : Nat) : List TokenKind → Bool
  | [] => false
  | k :: rest => k.inChain && (k.nesting opened == 0 || operandIsChain (k.nesting opened) rest)

/-- Whether a chain of names stands right of every dot. -/
def dotsTakeNames : List TokenKind → Bool
  | [] => true
  | .symbol .dot :: rest => operandIsChain 0 rest && dotsTakeNames rest
  | _ :: rest => dotsTakeNames rest

theorem Level.Writes.not_inChain {l : Level} {c : Symbol} {op : BinaryOp} (h : l.Writes c op) :
    (TokenKind.symbol c).inChain = false := by
  cases h <;> rfl

theorem Level.Writes.dotsTakeNames_cons {l : Level} {c : Symbol} {op : BinaryOp}
    (h : l.Writes c op) (rest : List TokenKind) :
    dotsTakeNames (.symbol c :: rest) = dotsTakeNames rest := by
  cases h <;> rfl

theorem Atom.inChain_eq {k : TokenKind} {e : Expr} (h : Atom k e) : k.inChain = e.isChain := by
  cases h <;> rfl

theorem Atom.nesting_eq {k : TokenKind} {e : Expr} (h : Atom k e) (opened : Nat) :
    k.nesting opened = opened := by
  cases h <;> rfl

theorem Atom.paths_eq {k : TokenKind} {e : Expr} (h : Atom k e) : e.paths = [] := by
  cases h <;> rfl

theorem Atom.dotsTakeNames_cons {k : TokenKind} {e : Expr} (h : Atom k e)
    (rest : List TokenKind) : dotsTakeNames (k :: rest) = dotsTakeNames rest := by
  cases h <;> rfl

namespace Derives

/-- The tree is a chain exactly if there are neither literals nor operators in the sequence. -/
theorem all_inChain {r : Rule} {ks : List TokenKind} {e : Expr} (h : Derives r ks e) :
    ks.all TokenKind.inChain = e.isChain := by
  induction h with
  | expression _ ih | operand _ _ ih | base _ ih => exact ih
  | binary _ _ hw _ _ _ =>
    rw [List.all_append, List.all_cons, hw.not_inChain, Bool.false_and, Bool.and_false]
    rfl
  | member _ _ _ ihb ihp =>
    rw [List.all_append, List.all_cons, ihb, ihp]
    rfl
  | atom ha => rw [List.all_cons, List.all_nil, Bool.and_true, ha.inChain_eq]
  | group _ ih =>
    rw [List.all_cons, List.all_append, ih]
    exact Bool.and_true _

/-- Inside parentheses a whole sequence is passed, and must be part of the chain. -/
theorem operandIsChain_append {r : Rule} {ks : List TokenKind} {e : Expr} (h : Derives r ks e)
    (opened : Nat) (rest : List TokenKind) :
    operandIsChain (opened + 1) (ks ++ rest) =
      (ks.all TokenKind.inChain && operandIsChain (opened + 1) rest) := by
  induction h generalizing opened rest with
  | expression _ ih | operand _ _ ih | base _ ih => exact ih opened rest
  | binary _ _ hw _ ihl _ =>
    rw [List.append_assoc, ihl, List.cons_append, operandIsChain, List.all_append, List.all_cons,
      hw.not_inChain]
    simp only [Bool.false_and, Bool.and_false]
  | member _ _ _ ihb ihp =>
    rw [List.append_assoc, ihb, List.cons_append, operandIsChain, List.all_append, List.all_cons]
    change (_ && (true && (false || operandIsChain (opened + 1) _))) = _
    rw [ihp]
    simp only [Bool.true_and, Bool.false_or, Bool.and_assoc]
    rfl
  | atom ha =>
    rw [List.cons_append, operandIsChain, ha.nesting_eq, List.all_cons, List.all_nil, Bool.and_true]
    rfl
  | group _ ih =>
    rw [List.cons_append, operandIsChain, List.append_assoc]
    change (true && (false || operandIsChain (opened + 1 + 1) _)) = _
    rw [ih, List.cons_append, operandIsChain, List.all_cons, List.all_append]
    simp only [TokenKind.nesting, TokenKind.inChain, List.all_cons, List.all_nil, List.nil_append,
      Bool.true_and, Bool.false_or, Bool.and_true, Nat.add_sub_cancel]
    rfl

/-- The operand at the front of a sequence is its first primary expression. -/
theorem operandIsChain_primary {ks : List TokenKind} {e : Expr} (h : Derives .primary ks e)
    (rest : List TokenKind) : operandIsChain 0 (ks ++ rest) = e.isChain := by
  cases h with
  | atom ha =>
    rw [List.cons_append, operandIsChain, ha.nesting_eq, ha.inChain_eq]
    exact Bool.and_true _
  | group hd =>
    rw [List.cons_append, operandIsChain, List.append_assoc]
    change (true && (false || operandIsChain (0 + 1) _)) = _
    rw [hd.operandIsChain_append, hd.all_inChain]
    exact Bool.and_true _

/-- Given that the paths inside a path are chains, the path is one if its first operand is. -/
theorem operandIsChain_path {ks : List TokenKind} {e : Expr} (h : Derives .deref ks e)
    (rest : List TokenKind) (hpaths : e.paths.all Expr.isChain = true) :
    operandIsChain 0 (ks ++ rest) = e.isChain := by
  cases h with
  | base hd => exact hd.operandIsChain_primary rest
  | member hb hp _ =>
    rw [Expr.paths, List.all_cons, Bool.and_eq_true] at hpaths
    rw [List.append_assoc, hb.operandIsChain_primary, Expr.isChain, hpaths.1, Bool.and_true]

/-- Every path in the tree is a chain exactly if every dot in the sequence takes names. -/
theorem dotsTakeNames_append {r : Rule} {ks : List TokenKind} {e : Expr} (h : Derives r ks e)
    (rest : List TokenKind) :
    dotsTakeNames (ks ++ rest) = (e.paths.all Expr.isChain && dotsTakeNames rest) := by
  induction h generalizing rest with
  | expression _ ih | operand _ _ ih | base _ ih => exact ih rest
  | binary _ _ hw _ ihl ihr =>
    rw [List.append_assoc, ihl, List.cons_append, hw.dotsTakeNames_cons, ihr, Expr.paths,
      List.all_append, Bool.and_assoc]
  | @member ks base ks' path _ hp _ ihb ihp =>
    rw [List.append_assoc, ihb, List.cons_append, dotsTakeNames, ihp, Expr.paths, List.all_cons,
      List.all_append]
    cases hpaths : path.paths.all Expr.isChain with
    | false => simp only [Bool.false_and, Bool.and_false]
    | true =>
      rw [hp.operandIsChain_path rest hpaths, Bool.true_and, Bool.and_true, Bool.and_left_comm,
        Bool.and_assoc]
  | atom ha => rw [List.cons_append, List.nil_append, ha.dotsTakeNames_cons, ha.paths_eq]; rfl
  | group _ ih =>
    rw [List.cons_append, List.append_assoc]
    exact ih _

/-- Every path in the tree is a name or an access. -/
theorem isMember_of_mem_paths {r : Rule} {ks : List TokenKind} {e : Expr} (h : Derives r ks e) :
    ∀ path ∈ e.paths, path.isMember = true := by
  induction h with
  | expression _ ih | operand _ _ ih | base _ ih | group _ ih => exact ih
  | binary _ _ _ _ ihl ihr =>
    intro path hpath
    rcases List.mem_append.mp hpath with hpath | hpath
    · exact ihl path hpath
    · exact ihr path hpath
  | member _ _ hm ihb ihp =>
    intro path hpath
    rcases List.mem_cons.mp hpath with rfl | hpath
    · exact hm
    · rcases List.mem_append.mp hpath with hpath | hpath
      · exact ihb path hpath
      · exact ihp path hpath
  | atom ha =>
    intro path hpath
    rw [ha.paths_eq] at hpath
    cases hpath

end Derives

theorem Sentence.isMember_of_mem_paths {ts : List Token} {e : Expr} (h : Sentence ts e) :
    ∀ path ∈ e.paths, path.isMember = true := by
  obtain ⟨_, _, _, _, hd⟩ := h
  exact hd.isMember_of_mem_paths

theorem Sentence.dotsTakeNames_eq {ts : List Token} {e : Expr} (h : Sentence ts e) :
    dotsTakeNames (ts.map Token.kind) = e.paths.all Expr.isChain := by
  obtain ⟨us, last, rfl, hlast, hd⟩ := h
  rw [List.map_append, hd.dotsTakeNames_append, List.map_cons, hlast]
  exact Bool.and_true _

end PredicateLang
