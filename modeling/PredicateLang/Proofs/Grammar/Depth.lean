import Mathlib.Data.Nat.Find
import PredicateLang.Proofs.Grammar.Activity
import PredicateLang.Proofs.Grammar.Budget

/-!
# The depth limit

The limit on active rules decides only whether a parse is cut off. Each source
has a least limit that suffices for it, between eight and eight times the number
of its tokens. From there on the result is always the same, and below it the
parse stops at a token that it has not taken, with exactly as many active rules
as the limit allows.
-/

namespace PredicateLang

/-- A parse of the stream with this limit is cut off. -/
def Cut (limit : Nat) (s : Stream' Token) : Prop :=
  ∃ e s', Fails limit limit [] .expression s e s' ∧ e.fault.IsTooDeep

section
variable {n limit : Nat} {s : Stream' Token} {ts : List Token} {last : Token}

theorem not_cut_of_ends (hs : Ends s ts last) : ¬ Cut (8 * (ts.length + 1)) s := by
  rintro ⟨e, s', h, he⟩
  refine h.not_tooDeep hs ?_ he
  simp only [Rule.height]
  omega

theorem le_of_not_cut (h : ¬ Cut n s) : 8 ≤ n := by
  by_contra hlt
  obtain ⟨e, s', hf, he⟩ := Fails.of_lt_height (r := .expression) n [] s (Nat.not_le.mp hlt)
  exact h ⟨e, s', hf, he⟩

/-- A limit that suffices gives a result that does not blame it, and so does every larger one:
the same. -/
theorem program_of_not_cut (h : ¬ Cut n s) (hn : n ≤ limit) :
    (ParseM.program limit ⟨s, []⟩).1 = (ParseM.program n ⟨s, []⟩).1 ∧
      ∀ e, (ParseM.program n ⟨s, []⟩).1 = .error e → ¬ e.fault.IsTooDeep := by
  rcases accepts_or_fails n n [] .expression s with ⟨root, s', ha⟩ | ⟨e, s', hf⟩
  · rw [(ha.mono hn).program_eq, ha.program_eq]
    refine ⟨rfl, fun e he => ?_⟩
    simp only [Expr.finish] at he
    split at he
    · cases he
    · cases he
      exact TokenKind.misplaced_not_tooDeep (by rintro ⟨m, hm⟩; cases hm) _
  · have hdeep : ¬ e.fault.IsTooDeep := fun he => h ⟨e, s', hf, he⟩
    rw [(hf.mono hdeep hn limit).program_eq, hf.program_eq]
    refine ⟨rfl, fun e' he => ?_⟩
    cases he
    exact hdeep

/-- A parse that is cut off reports its limit, as many active rules, and the token that would be
taken next. -/
theorem program_of_cut (h : Cut limit s) :
    ∃ rules s', ParseM.program limit ⟨s, []⟩ =
      (.error ⟨.tooDeep limit, rules, s'.head⟩, ⟨s', []⟩) ∧ rules.length = limit := by
  obtain ⟨⟨fault, rules, token⟩, s', hf, he⟩ := h
  obtain ⟨hfault, hlength, htoken⟩ := hf.of_tooDeep he
  refine ⟨rules, s', ?_, by rw [hlength, List.length_nil, Nat.zero_add]⟩
  rw [hf.program_eq]
  dsimp only at hfault htoken
  rw [hfault, htoken]

end

/-- The least sufficient limit of a source lies between eight and eight times the number of its
tokens. Every limit from there on gives one and the same result. Every smaller one is blamed, with
as many active rules as it allows, at the token that the parser would take next. More rules than
the limit are never active: not at any request for a token, and every rule makes one. -/
theorem exists_least_sufficient_depth (source : String) :
    (∃ n result, 8 ≤ n ∧ n ≤ 8 * (tokens source).length ∧
      (∀ e, result = .error e → ¬ e.fault.IsTooDeep) ∧
      (∀ limit, n ≤ limit → (parseWith limit source).result = result) ∧
      ∀ limit, limit < n → ∃ rules, rules.length = limit ∧
        (parseWith limit source).result = .error ⟨.tooDeep limit, rules,
          (ParseM.program limit (Parser.start source)).2.next.1⟩) ∧
    ∀ limit, ∀ active ∈ ParseM.activations limit limit .expression (Parser.start source),
      active.length ≤ limit := by
  classical
  obtain ⟨ts, last, htokens, hs⟩ := exists_tokens_eq source
  have hbound := not_cut_of_ends hs
  have hex : ∃ n, ¬ Cut n (stream source) := ⟨_, hbound⟩
  refine ⟨⟨Nat.find hex, (parseWith (Nat.find hex) source).result,
    le_of_not_cut (Nat.find_spec hex), ?_, ?_, ?_, ?_⟩, ?_⟩
  · have hmin := Nat.find_min' hex hbound
    rw [htokens, List.length_append]
    exact hmin
  · rw [← program_stream_result]
    exact (program_of_not_cut (Nat.find_spec hex) le_rfl).2
  · intro limit hle
    rw [← program_stream_result, ← program_stream_result]
    exact (program_of_not_cut (Nat.find_spec hex) hle).1
  · intro limit hlt
    obtain ⟨rules, s', hprogram, hlength⟩ := program_of_cut (not_not.mp (Nat.find_min hex hlt))
    refine ⟨rules, hlength, ?_⟩
    rw [program_stream] at hprogram
    obtain ⟨herror, hstate⟩ := Prod.mk.inj hprogram
    rw [herror]
    have hnext := (ParseM.program limit (Parser.start source)).2.tokens.next_eq.1
    have htail := congrArg Parser.tokens hstate
    change Window.stream _ = s' at htail
    rw [htail] at hnext
    rw [← hnext]
    rfl
  · intro limit active hmem
    have hle := ParseM.length_le_of_mem_activations hmem
    rwa [show (Parser.start source).active.length = 0 from rfl, Nat.zero_add] at hle

end PredicateLang
