/-!
# Places in a source text

A span is a stretch of the source, measured in bytes of its UTF-8 form. A
position is the line and column a reader would name. Offsets that lie outside
the text or inside a character have neither an excerpt nor a position.
-/

namespace PredicateLang

/-- A line and a column, both counted from one. Lines end at line feeds only, and columns
count characters. -/
structure Position where
  line : Nat
  column : Nat
  deriving Repr, DecidableEq

/-- A stretch of the source text in bytes. -/
structure Span where
  offset : Nat
  length : Nat
  deriving Repr, DecidableEq

namespace Source

/-- The number of bytes that the characters take. -/
def byteSize (text : List Char) : Nat :=
  text.foldr (fun c size => c.utf8Size + size) 0

/-- The characters before and after a byte offset, if the offset falls between characters. -/
def splitAt? : Nat → List Char → Option (List Char × List Char)
  | 0, text => some ([], text)
  | _ + 1, [] => none
  | n + 1, c :: text =>
    if c.utf8Size ≤ n + 1 then
      (splitAt? (n + 1 - c.utf8Size) text).map fun (before, after) => (c :: before, after)
    else none

@[simp] theorem byteSize_nil : byteSize [] = 0 := rfl

@[simp] theorem byteSize_cons (c : Char) (text : List Char) :
    byteSize (c :: text) = c.utf8Size + byteSize text :=
  rfl

@[simp] theorem byteSize_append (a b : List Char) :
    byteSize (a ++ b) = byteSize a + byteSize b := by
  induction a with
  | nil => simp
  | cons c a ih => simp [ih, Nat.add_assoc]

/-- An offset that is the size of a leading part splits the text there. -/
theorem splitAt?_byteSize (before after : List Char) :
    splitAt? (byteSize before) (before ++ after) = some (before, after) := by
  induction before with
  | nil => simp [splitAt?]
  | cons c before ih =>
    have hc : 0 < c.utf8Size := c.utf8Size_pos
    obtain ⟨n, hn⟩ : ∃ n, byteSize (c :: before) = n + 1 :=
      ⟨byteSize (c :: before) - 1, by simp only [byteSize_cons]; omega⟩
    rw [hn, List.cons_append, splitAt?]
    simp only [byteSize_cons] at hn
    rw [if_pos (by omega), show n + 1 - c.utf8Size = byteSize before by omega, ih]
    rfl

/-- Only sizes of leading parts split a text. -/
theorem append_of_splitAt? {n : Nat} {text before after : List Char}
    (h : splitAt? n text = some (before, after)) :
    before ++ after = text ∧ byteSize before = n := by
  induction text generalizing n before after with
  | nil =>
    cases n with
    | zero => simp_all [splitAt?]
    | succ n => simp [splitAt?] at h
  | cons c text ih =>
    cases n with
    | zero => simp_all [splitAt?]
    | succ n =>
      rw [splitAt?] at h
      split at h
      · obtain ⟨⟨before', after'⟩, h', heq⟩ := Option.map_eq_some_iff.1 h
        obtain ⟨rfl, rfl⟩ := Prod.mk.inj heq
        obtain ⟨rfl, hsize⟩ := ih h'
        exact ⟨rfl, by simp only [byteSize_cons]; omega⟩
      · simp at h

end Source

namespace Position

/-- The position right after a stretch of text that starts at the first column of the first
line. -/
def after (text : List Char) : Position :=
  ⟨text.count '\n' + 1, (text.reverse.takeWhile (· ≠ '\n')).length + 1⟩

/-- Line and column, separated by a comma. -/
def text (p : Position) : String :=
  s!"{p.line},{p.column}"

end Position

namespace Span

/-- The text that the span covers. -/
def excerpt? (span : Span) (source : String) : Option String := do
  let (_, after) ← Source.splitAt? span.offset source.toList
  let (covered, _) ← Source.splitAt? span.length after
  return String.ofList covered

/-- Where the span starts. -/
def position? (span : Span) (source : String) : Option Position := do
  let (before, _) ← Source.splitAt? span.offset source.toList
  return .after before

/-- The text that a span of a token covers. The spans of tokens always cover one. -/
def excerpt (span : Span) (source : String) : String :=
  (span.excerpt? source).getD ""

/-- Where a token stands, as line and column. The spans of tokens always have a position. -/
def location (span : Span) (source : String) : String :=
  ((span.position? source).map Position.text).getD ""

end Span
end PredicateLang
