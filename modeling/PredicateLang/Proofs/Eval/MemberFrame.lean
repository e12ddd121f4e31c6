import PredicateLang.Proofs.Eval.Trace
import PredicateLang.Proofs.Grammar.MemberPath

/-!
# What is evaluated against a member

The frames above the root belong to the member accesses being evaluated. If
every path in a tree is a chain of names, evaluation starts no other node while
such a frame is current. The trees for which this holds are those whose tokens
have names right of every dot.
-/

namespace PredicateLang

/-- Nodes that are entered with a frame above the root satisfy `P`. -/
def Event.AtMembers (P : Expr → Prop) : Event → Prop
  | .entered _ frames expr => frames.inner ≠ [] → P expr
  | .resolved _ | .underflow => True

namespace EvalM

variable {σ : Type}

/-- If every path in a tree is a chain, what is entered with a frame above the root is a chain. -/
theorem evaluateAt_traces (world : World σ) (e : Expr) (address : Address) (frames : Frames)
    (hpaths : ∀ path ∈ e.paths, path.isChain = true)
    (hmember : frames.inner ≠ [] → e.isChain = true) :
    Traces frames (Event.AtMembers (·.isChain = true)) (evaluateAt world e address) := by
  induction e generalizing address frames with
  | literal l => exact (Traces.enter _ _ hmember).bind fun _ => .lift _
  | identifier name => exact (Traces.enter _ _ hmember).bind fun _ => .ask world name trivial
  | member base path ihb ihp =>
    obtain ⟨hpath, hrest⟩ := List.forall_mem_cons.mp hpaths
    refine (Traces.enter _ _ hmember).bind fun _ => Traces.bind ?_ fun v => .inFrame ?_
    · refine ihb _ _ (fun p hp => hrest p (List.mem_append_left _ hp)) fun hinner => ?_
      exact (Bool.and_eq_true_iff.mp (hmember hinner)).1
    · exact ihp _ _ (fun p hp => hrest p (List.mem_append_right _ hp)) fun _ => hpath
  | binary op left right ihl ihr =>
    -- An operator is never part of a chain, so it is entered at the root only.
    have hroot : frames.inner = [] := by
      by_contra hinner
      cases hmember hinner
    refine (Traces.enter _ _ hmember).bind fun _ => .combine op ?_ ?_
    · exact ihl _ _ (fun p hp => hpaths p (List.mem_append_left _ hp)) fun h => absurd hroot h
    · exact ihr _ _ (fun p hp => hpaths p (List.mem_append_right _ hp)) fun h => absurd hroot h

end EvalM

/-- The path of a member access is a name or an access itself. All paths of a parsed tree are
chains of names exactly if names stand right of every dot of the source, and then evaluation
enters nothing but chains of names while the frame of a member is current. -/
theorem paths_isChain_iff_dotsTakeNames (limit : Nat) (source : String) (p : Program)
    (h : (parseWith limit source).result = .ok p) :
    (∀ path ∈ p.root.paths, path.isMember = true) ∧
    ((∀ path ∈ p.root.paths, path.isChain = true) ↔
      dotsTakeNames ((tokens source).map Token.kind) = true) ∧
    ((∀ path ∈ p.root.paths, path.isChain = true) →
      ∀ (σ : Type) (world : World σ) (context : Value) (state : σ),
        ∀ event ∈ ((Interpreter.start context state).evaluate world p.root).2.trace,
          event.AtMembers (·.isChain = true)) := by
  have hs := sentence_of_parseWith h
  refine ⟨hs.isMember_of_mem_paths, ?_, ?_⟩
  · rw [hs.dotsTakeNames_eq, List.all_eq_true]
  · intro hchains σ world context state
    have htraces := EvalM.evaluateAt_traces world p.root [] (.start context) hchains
      fun hinner => absurd rfl hinner
    exact (htraces (.start context state) rfl fun event hevent => by cases hevent).2

theorem paths_isChain_name :
    (parseWith 9 "a.b").result = .ok ⟨.member (.identifier "a") (.identifier "b")⟩ ∧
      dotsTakeNames ((tokens "a.b").map Token.kind) = true := by
  have hparse : (parseWith 9 "a.b").result =
      .ok ⟨.member (.identifier "a") (.identifier "b")⟩ := rfl
  obtain ⟨_, hiff, _⟩ := paths_isChain_iff_dotsTakeNames 9 "a.b" _ hparse
  refine ⟨hparse, hiff.mp fun path hpath => ?_⟩
  obtain rfl := List.mem_singleton.mp hpath
  rfl

/-- A sum passes for the beginning of a path, because another dot follows it. -/
theorem exists_path_not_chain :
    ∃ p, (parse "a.(1 + 2).b").result = .ok p ∧ ∃ path ∈ p.root.paths, path.isChain = false := by
  have hsum : ((parse "a.(1 + 2).b").result.toOption.any
      fun p => p.root.paths.any (!·.isChain)) = true := by
    decide +kernel
  cases hp : (parse "a.(1 + 2).b").result with
  | error e =>
    rw [hp] at hsum
    cases hsum
  | ok p =>
    rw [hp] at hsum
    obtain ⟨path, hmem, hpath⟩ := List.any_eq_true.mp hsum
    exact ⟨p, rfl, path, hmem, by simpa using hpath⟩

end PredicateLang
