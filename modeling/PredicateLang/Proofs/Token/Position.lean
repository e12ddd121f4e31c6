import Mathlib.Data.Prod.Lex
import PredicateLang.Proofs.Token.Tiling

/-!
# Positions as addresses

The position of an offset counts all line feeds before it, and the characters after the last of
them. A reader who goes through the source once, from left to right, counts the same as it goes.
Ordered by line and then by column, its position grows with every character, whichever it is. So
two boundaries of a source have their positions in the order of their offsets, and each token
stands at a later position than the one before it.
-/

namespace PredicateLang

namespace Position

/-- Where a reader stands before the first character. -/
def start : Position := ⟨1, 1⟩

/-- Where a reader stands after one more character. -/
def step (p : Position) (c : Char) : Position :=
  if c = '\n' then ⟨p.line + 1, 1⟩ else ⟨p.line, p.column + 1⟩

/-- Where a reader stands after a stretch of text, character by character. -/
def walk (p : Position) (text : List Char) : Position :=
  text.foldl step p

/-- Lines weigh more than columns. -/
def rank (p : Position) : ℕ ×ₗ ℕ :=
  toLex (p.line, p.column)

instance : Preorder Position := Preorder.lift rank

theorem lt_iff {p q : Position} :
    p < q ↔ p.line < q.line ∨ p.line = q.line ∧ p.column < q.column :=
  Prod.Lex.toLex_lt_toLex

theorem lt_step (p : Position) (c : Char) : p < p.step c := by
  rw [lt_iff, step]
  split
  · exact .inl (Nat.lt_succ_self p.line)
  · exact .inr ⟨rfl, Nat.lt_succ_self p.column⟩

theorem le_walk (p : Position) (text : List Char) : p ≤ p.walk text := by
  induction text generalizing p with
  | nil => exact le_refl p
  | cons c text ih => exact (lt_step p c).le.trans (ih (p.step c))

theorem walk_append (p : Position) (text more : List Char) :
    p.walk (text ++ more) = (p.walk text).walk more :=
  List.foldl_append

theorem lt_walk_cons (p : Position) (c : Char) (text : List Char) : p < p.walk (c :: text) :=
  (lt_step p c).trans_le (le_walk (p.step c) text)

/-- One more character is counted by the whole text as it is by the reader. -/
theorem after_append_singleton (text : List Char) (c : Char) :
    after (text ++ [c]) = (after text).step c := by
  have hlast : (text ++ [c]).reverse = c :: text.reverse := by
    rw [List.reverse_append, List.reverse_singleton, List.singleton_append]
  simp only [after, step, hlast, List.count_append, List.count_singleton, List.takeWhile_cons]
  by_cases hc : c = '\n'
  · simp [hc]
  · simp [hc]

/-- Counting the whole text gives what a reader counts on the way. -/
theorem after_eq_walk (text : List Char) : after text = start.walk text := by
  induction text using List.reverseRecOn with
  | nil => rfl
  | append_singleton text c ih => rw [after_append_singleton, ih, walk_append]; rfl

end Position

/-- Both spans have a position in the source, and the first stands earlier. -/
def Span.StartsBefore (source : String) (a b : Span) : Prop :=
  ∃ p q, a.position? source = some p ∧ b.position? source = some q ∧ p < q

theorem Span.StartsBefore.position?_ne {source : String} {a b : Span}
    (h : a.StartsBefore source b) : a.position? source ≠ b.position? source := by
  obtain ⟨p, q, hp, hq, hlt⟩ := h
  rw [hp, hq]
  exact fun heq => hlt.ne (Option.some.inj heq)

namespace Source

variable {source : String} {a b : Span}

/-- The position of a span is what a reader counts on the way to its start, and there is none
for an offset that is no boundary. -/
theorem position?_eq_some_iff {p : Position} :
    a.position? source = some p ↔
      ∃ before after, splitAt? a.offset source.toList = some (before, after) ∧
        p = Position.start.walk before := by
  constructor
  · intro h
    obtain ⟨⟨before, after⟩, hsplit, hp⟩ := Option.bind_eq_some_iff.mp h
    exact ⟨before, after, hsplit, (Option.some.inj hp).symm.trans (Position.after_eq_walk before)⟩
  · rintro ⟨before, after, hsplit, rfl⟩
    rw [Span.position?, hsplit, ← Position.after_eq_walk]
    rfl

theorem isBoundary_of_position? {p : Position} (h : a.position? source = some p) :
    IsBoundary source a.offset := by
  obtain ⟨before, after, hsplit, -⟩ := position?_eq_some_iff.mp h
  exact ⟨before, after, hsplit⟩

/-- Of two leading parts of a text the shorter one begins the longer one. -/
theorem exists_eq_append_cons {before after before' after' : List Char}
    (h : before ++ after = before' ++ after') (hlt : byteSize before < byteSize before') :
    ∃ c more, before' = before ++ c :: more := by
  rcases List.append_eq_append_iff.mp h with ⟨between, rfl, -⟩ | ⟨between, rfl, -⟩
  · cases between with
    | nil => simp at hlt
    | cons c more => exact ⟨c, more, rfl⟩
  · rw [byteSize_append] at hlt
    omega

theorem startsBefore_of_lt (ha : IsBoundary source a.offset) (hb : IsBoundary source b.offset)
    (hlt : a.offset < b.offset) : a.StartsBefore source b := by
  obtain ⟨before, after, hsplit⟩ := ha
  obtain ⟨before', after', hsplit'⟩ := hb
  obtain ⟨hsource, hsize⟩ := append_of_splitAt? hsplit
  obtain ⟨hsource', hsize'⟩ := append_of_splitAt? hsplit'
  obtain ⟨c, more, rfl⟩ := exists_eq_append_cons (hsource.trans hsource'.symm)
    (by rwa [hsize, hsize'])
  refine ⟨_, _, position?_eq_some_iff.mpr ⟨_, _, hsplit, rfl⟩,
    position?_eq_some_iff.mpr ⟨_, _, hsplit', rfl⟩, ?_⟩
  rw [Position.walk_append]
  exact Position.lt_walk_cons _ c more

theorem offset_eq_of_position? {p : Position} (ha : a.position? source = some p)
    (hb : b.position? source = some p) : a.offset = b.offset := by
  have hsame : a.position? source = b.position? source := ha.trans hb.symm
  have hleft := isBoundary_of_position? ha
  have hright := isBoundary_of_position? hb
  rcases Nat.lt_trichotomy a.offset b.offset with hlt | heq | hgt
  · exact absurd hsame (startsBefore_of_lt hleft hright hlt).position?_ne
  · exact heq
  · exact absurd hsame.symm (startsBefore_of_lt hright hleft hgt).position?_ne

/-- Positions are what a reader of the source counts. They are in the order of the offsets, so that
no two offsets share one, and the tokens stand at positions that grow to the last. -/
theorem positions_address (source : String) :
    (∀ (a : Span) (p : Position), a.position? source = some p ↔
      ∃ before after, splitAt? a.offset source.toList = some (before, after) ∧
        p = Position.start.walk before) ∧
    (∀ a b : Span, IsBoundary source a.offset → IsBoundary source b.offset →
      a.offset < b.offset → a.StartsBefore source b) ∧
    (∀ (a b : Span) (p : Position), a.position? source = some p → b.position? source = some p →
      a.offset = b.offset) ∧
    (tokens source).Pairwise fun t u => t.span.StartsBefore source u.span := by
  refine ⟨fun a p => position?_eq_some_iff, fun a b => startsBefore_of_lt,
    fun a b p => offset_eq_of_position?, ?_⟩
  refine (pairwise_offset_tokens source).imp_of_mem fun {t u} ht hu hlt => ?_
  exact startsBefore_of_lt (liesIn_of_mem_tokens ht).starts (liesIn_of_mem_tokens hu).starts hlt

/-- A character of two bytes, a carriage return and a line feed. -/
theorem positions_address_lineFeed :
    (Span.mk 2 0).StartsBefore "é\r\nb" ⟨4, 1⟩ ∧
      (Span.mk 4 1).position? "é\r\nb" = some ⟨2, 1⟩ :=
  ⟨(positions_address _).2.1 ⟨2, 0⟩ ⟨4, 1⟩ ⟨['é'], ['\r', '\n', 'b'], rfl⟩
      ⟨['é', '\r', '\n'], ['b'], rfl⟩ (by decide),
    ((positions_address _).1 ⟨4, 1⟩ ⟨2, 1⟩).mpr ⟨['é', '\r', '\n'], ['b'], rfl, rfl⟩⟩

end Source
end PredicateLang
