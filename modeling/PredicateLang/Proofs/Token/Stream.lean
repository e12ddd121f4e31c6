import Mathlib.Data.Stream.Init
import PredicateLang.Grammar.Window
import PredicateLang.Proofs.Token.Kind

/-!
# The endless stream of tokens

A scanner never stops handing out tokens, so all that it will ever hand out is a
stream. The stream of a source is the finite list `tokens` with its last token
repeated for ever, and a window of any size in front of a scanner shows the same
stream. Nothing is said here about which text forms which token.
-/

namespace PredicateLang

/-- The stream hands out `ts` and then `last` for ever, and only `last` is final. -/
structure Ends (s : Stream' Token) (ts : List Token) (last : Token) : Prop where
  eq_append : s = ts ++ₛ Stream'.const last
  unfinished : ∀ t ∈ ts, t.kind.isFinal = false
  final : last.kind.isFinal = true

namespace Ends

variable {s : Stream' Token} {t last : Token} {ts : List Token}

theorem const (h : t.kind.isFinal = true) : Ends (Stream'.const t) [] t :=
  ⟨rfl, by simp, h⟩

theorem cons (ht : s.head.kind.isFinal = false) (h : Ends s.tail ts last) :
    Ends s (s.head :: ts) last := by
  refine ⟨?_, ?_, h.final⟩
  · rw [Stream'.cons_append_stream, ← h.eq_append, Stream'.eta]
  · intro t hmem
    rcases List.mem_cons.mp hmem with rfl | hmem
    · exact ht
    · exact h.unfinished t hmem

theorem head_nil (h : Ends s [] last) : s.head = last := by
  rw [h.eq_append]
  rfl

theorem head_cons (h : Ends s (t :: ts) last) : s.head = t := by
  rw [h.eq_append]
  rfl

theorem tail_cons (h : Ends s (t :: ts) last) : Ends s.tail ts last := by
  refine ⟨?_, fun u hu => h.unfinished u (List.mem_cons_of_mem t hu), h.final⟩
  rw [h.eq_append]
  rfl

/-- A token that is not final is one of the finitely many before the last. -/
theorem exists_cons (h : Ends s ts last) (hs : s.head.kind.isFinal = false) :
    ∃ rest, ts = s.head :: rest ∧ Ends s.tail rest last := by
  cases ts with
  | nil =>
    have hl := h.final
    rw [h.head_nil] at hs
    rw [hs] at hl
    contradiction
  | cons t ts => exact ⟨ts, by rw [h.head_cons], h.tail_cons⟩

end Ends

namespace Scanner

/-- Everything that a scanner will ever hand out. -/
def stream : Scanner → Stream' Token :=
  Stream'.corec' scan

@[simp] theorem head_stream (s : Scanner) : s.stream.head = s.scan.1 := rfl

@[simp] theorem tail_stream (s : Scanner) : s.stream.tail = s.scan.2.stream :=
  congrArg Stream'.tail (Stream'.corec'_eq scan s)

theorem stream_eq_const {s : Scanner} (h : s.scan.2 = s) : s.stream = Stream'.const s.scan.1 := by
  apply Stream'.ext
  intro n
  induction n with
  | zero => rfl
  | succ n ih =>
    change s.stream.tail.get n = _
    rw [tail_stream, h, ih]
    rfl

/-- After a final token a scanner hands out that token again and changes no more. -/
theorem scan_advance_of_final {s : Scanner} (h : s.advance.1.kind.isFinal = true) (hs : s.failed = none) :
    s.advance.2.scan = (s.advance.1, s.advance.2) := by
  have hkind := advance_kind s
  cases hk : (Lexeme.read s.operandExpected (s.rest.dropWhile Text.isBlank)).kind with
  | malformed e => simp [scan, advance, hk]
  | endOfInput =>
    have hnil := Lexeme.eq_nil_of_read hk
    simp [scan, advance, hnil, hs, Lexeme.read, TokenKind.endsOperand]
  | _ =>
    rw [hkind, hk] at h
    simp [TokenKind.isFinal] at h

theorem failed_advance {s : Scanner} (h : s.advance.1.kind.isFinal = false) :
    s.advance.2.failed = s.failed := by
  rw [advance_kind] at h
  simp only [advance]
  split
  · rename_i hk
    rw [hk] at h
    contradiction
  · rfl

/-- The tokens of a scanner are its stream up to the first final token, which repeats. -/
theorem stream_ends (s : Scanner) (hs : s.failed = none) :
    ∃ ts last, s.tokensFrom = ts ++ [last] ∧ Ends s.stream ts last := by
  fun_induction tokensFrom s with
  | case1 s token h => simp [hs] at h
  | case2 s h hfinal =>
    have hscan : s.scan = s.advance := by simp [scan, hs]
    have hfixed := scan_advance_of_final hfinal hs
    refine ⟨[], s.advance.1, rfl, ?_⟩
    have heq : s.stream = Stream'.const s.advance.1 := by
      have htail := stream_eq_const (s := s.advance.2) (by rw [hfixed])
      rw [← Stream'.eta s.stream, tail_stream, head_stream, hscan, htail, hfixed,
        ← Stream'.const_eq]
    rw [heq]
    exact Ends.const hfinal
  | case3 s h hopen ih =>
    have hopen := Bool.eq_false_iff.mpr hopen
    have hscan : s.scan = s.advance := by simp [scan, hs]
    obtain ⟨ts, last, htokens, hends⟩ := ih ((failed_advance hopen).trans hs)
    refine ⟨s.advance.1 :: ts, last, by rw [htokens]; rfl, ?_⟩
    have hcons := Ends.cons (s := s.stream) (by rw [head_stream, hscan]; exact hopen)
      (by rw [tail_stream, hscan]; exact hends)
    rwa [head_stream, hscan] at hcons

end Scanner

/-- The tokens of a source, the last one repeated for ever. -/
def stream (source : String) : Stream' Token :=
  (Scanner.start source).stream

theorem exists_tokens_eq (source : String) :
    ∃ ts last, tokens source = ts ++ [last] ∧ Ends (stream source) ts last :=
  (Scanner.start source).stream_ends rfl

namespace Window

/-- What a window will hand out: the tokens ahead, and then what the scanner hands out. -/
def stream (w : Window) : Stream' Token :=
  w.ahead ++ₛ w.scanner.stream

/-- Reading a token into the window leaves what it hands out as it is. -/
theorem stream_fetch (w : Window) : w.fetch.stream = w.stream := by
  have h : w.scan.2.ahead = w.ahead ∧ w.scan.1 = w.scanner.scan.1 ∧
      w.scan.2.scanner = w.scanner.scan.2 := ⟨rfl, rfl, rfl⟩
  obtain ⟨hahead, htoken, hscanner⟩ := h
  simp only [stream, fetch, hahead, htoken, hscanner, Stream'.append_append_stream]
  rw [← Scanner.head_stream, ← Scanner.tail_stream, Stream'.append_stream_head_tail]

theorem stream_fill (n : Nat) (w : Window) : (w.fill n).stream = w.stream := by
  induction n generalizing w with
  | zero => rfl
  | succ n ih => rw [fill, ih, stream_fetch]

theorem upcoming_eq (n : Nat) (w : Window) :
    (w.upcoming n).1 = w.stream.get n ∧ (w.upcoming n).2.stream = w.stream := by
  have hreach : (w.reach n).stream = w.stream := stream_fill _ _
  refine ⟨?_, hreach⟩
  rw [← hreach]
  exact (Stream'.get_append_left n _ _ (lt_length_ahead_reach n w)).symm

theorem next_eq (w : Window) : w.next.1 = w.stream.head ∧ w.next.2.stream = w.stream.tail := by
  unfold next
  split
  · rename_i token ahead h
    simp [stream, h, Stream'.cons_append_stream]
  · rename_i h
    simp [stream, h, scan]

end Window
end PredicateLang
