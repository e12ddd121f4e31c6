import PredicateLang.Proofs.Token.Stream

/-!
# The end of scanning

Every token that others follow uses up characters, so a source has at most one token more than
it has characters. The last one is where scanning ends for good. The end of input is found again
where it was found before, and a malformed token is kept; in either case the scanner hands out
nothing else from there on.
-/

namespace PredicateLang

namespace Scanner

/-- What repeated scanning hands out is the beginning of the stream. -/
theorem take_eq_take_stream (n : Nat) (s : Scanner) : s.take n = s.stream.take n := by
  induction n generalizing s with
  | zero => rfl
  | succ n ih => rw [take, ih, Stream'.take_succ, head_stream, tail_stream]

/-- The tokens are at most one more than the characters that are left. -/
theorem length_tokensFrom_le (s : Scanner) : s.tokensFrom.length ≤ s.rest.length + 1 := by
  fun_induction tokensFrom s with
  | case1 s token h => exact Nat.le_add_left 1 _
  | case2 s h hfinal => exact Nat.le_add_left 1 _
  | case3 s h hopen ih =>
    have hlt := length_rest_advance_lt (Bool.eq_false_iff.mpr hopen)
    rw [List.length_cons]
    omega

end Scanner

/-- The tokens of a source are at most one more than its characters, and only the last of them is
the end of input or malformed. Any number of scans in a row hand out the tokens in their order, and
then the last one again and again, with its span. -/
theorem take_start_eq_tokens (source : String) :
    ∃ ts last, tokens source = ts ++ [last] ∧ (tokens source).length ≤ source.length + 1 ∧
      (∀ t ∈ ts, t.kind.isFinal = false) ∧ last.kind.isFinal = true ∧
      ∀ n, (Scanner.start source).take n = Stream'.take n (tokens source ++ₛ Stream'.const last) := by
  obtain ⟨ts, last, htokens, hends⟩ := exists_tokens_eq source
  refine ⟨ts, last, htokens, ?_, hends.unfinished, hends.final, fun n => ?_⟩
  · rw [← String.length_toList]
    exact (Scanner.start source).length_tokensFrom_le
  · have hstream : (Scanner.start source).stream = tokens source ++ₛ Stream'.const last := by
      rw [htokens, Stream'.append_append_stream]
      exact hends.eq_append.trans (congrArg (ts ++ₛ ·) (Stream'.const_eq last))
    rw [Scanner.take_eq_take_stream, hstream]

end PredicateLang
