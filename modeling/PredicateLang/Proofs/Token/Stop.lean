import Mathlib.Data.List.TakeWhile
import PredicateLang.Text.Blank
import PredicateLang.Token.Numeral
import PredicateLang.Token.Word

/-!
# What stops a token

A run of characters of one class goes up to the first character outside the class.
All classes of the scanner consist of visible ASCII characters, so that white space
stops each of them, and so does the end of the text. The one place where a second
character counts is a point after digits.
-/

namespace PredicateLang

section
variable {α : Type} {p : α → Bool} {run rest : List α}

/-- A run ends where a character fails the test. -/
theorem takeWhile_append_stop (hrun : ∀ c ∈ run, p c = true)
    (hrest : ∀ c ∈ rest.head?, p c = false) : (run ++ rest).takeWhile p = run := by
  rw [List.takeWhile_append_of_pos hrun]
  cases rest with
  | nil => rw [List.takeWhile_nil, List.append_nil]
  | cons c rest =>
    rw [List.takeWhile_cons_of_neg (by rw [hrest c rfl]; decide), List.append_nil]

theorem dropWhile_append_stop (hrun : ∀ c ∈ run, p c = true)
    (hrest : ∀ c ∈ rest.head?, p c = false) : (run ++ rest).dropWhile p = rest := by
  have happend := List.takeWhile_append_dropWhile (p := p) (l := run ++ rest)
  rw [takeWhile_append_stop hrun hrest] at happend
  exact List.append_cancel_left happend

theorem takeWhile_spec (p : α → Bool) (cs : List α) : ∀ c ∈ cs.takeWhile p, p c = true :=
  List.all_eq_true.mp List.all_takeWhile

theorem head?_dropWhile_spec (p : α → Bool) (cs : List α) :
    ∀ c ∈ (cs.dropWhile p).head?, p c = false := by
  intro c hc
  have hhead := List.head?_dropWhile_not p cs
  rw [Option.mem_def.mp hc] at hhead
  exact hhead

/-- What a run is followed by is what its test stops at. -/
theorem stop_of_takeWhile_append (h : (run ++ rest).takeWhile p = run) :
    (∀ c ∈ run, p c = true) ∧ ∀ c ∈ rest.head?, p c = false := by
  have hdrop : (run ++ rest).dropWhile p = rest := by
    have happend := List.takeWhile_append_dropWhile (p := p) (l := run ++ rest)
    rw [h] at happend
    exact List.append_cancel_left happend
  exact ⟨h ▸ takeWhile_spec p _, hdrop ▸ head?_dropWhile_spec p _⟩

theorem stop_of_takeWhile_eq_nil (h : rest.takeWhile p = []) : ∀ c ∈ rest.head?, p c = false :=
  (@stop_of_takeWhile_append _ _ [] _ h).2

theorem takeWhile_eq_nil_of_stop (hrest : ∀ c ∈ rest.head?, p c = false) :
    rest.takeWhile p = [] :=
  @takeWhile_append_stop _ _ [] _ (fun _ hc => by cases hc) hrest

/-- The run is the longest of its class that a text of it and `rest` starts with. -/
structure IsRun (p : α → Bool) (run rest : List α) : Prop where
  all : ∀ c ∈ run, p c = true
  stop : ∀ c ∈ rest.head?, p c = false

theorem IsRun.takeWhile_eq (h : IsRun p run rest) : (run ++ rest).takeWhile p = run :=
  takeWhile_append_stop h.all h.stop

theorem IsRun.dropWhile_eq (h : IsRun p run rest) : (run ++ rest).dropWhile p = rest :=
  dropWhile_append_stop h.all h.stop

theorem isRun_takeWhile (p : α → Bool) (cs : List α) :
    IsRun p (cs.takeWhile p) (cs.dropWhile p) :=
  ⟨takeWhile_spec p cs, head?_dropWhile_spec p cs⟩

theorem any_head?_eq_false_iff : rest.head?.any p = false ↔ ∀ c ∈ rest.head?, p c = false := by
  cases rest <;> simp

theorem isRun_iff : IsRun p run rest ↔ run.all p = true ∧ rest.head?.any p = false := by
  rw [List.all_eq_true, any_head?_eq_false_iff]
  exact ⟨fun h => ⟨h.all, h.stop⟩, fun ⟨hall, hstop⟩ => ⟨hall, hstop⟩⟩

instance : Decidable (IsRun p run rest) :=
  decidable_of_iff _ isRun_iff.symm

end

namespace Text

/-- White space lies outside the visible ASCII characters. -/
theorem toNat_of_isBlank {c : Char} (h : isBlank c = true) : c.toNat ≤ 0x20 ∨ 0x85 ≤ c.toNat := by
  obtain ⟨r, hr, hlow, hhigh⟩ := Ranges.contains_iff.mp h
  simp only [blankRanges, List.mem_cons, List.not_mem_nil, or_false] at hr
  rcases hr with rfl | rfl | rfl | rfl | rfl | rfl | rfl | rfl | rfl | rfl <;> simp only at * <;> omega

end Text

namespace Lexeme

/-- Only visible ASCII characters pass the test. -/
def Visible (p : Char → Bool) : Prop :=
  ∀ c, p c = true → 0x20 < c.toNat ∧ c.toNat < 0x7F

theorem Visible.isBlank_eq_false {p : Char → Bool} (hp : Visible p) {c : Char} (h : p c = true) :
    Text.isBlank c = false := by
  cases hblank : Text.isBlank c with
  | false => rfl
  | true =>
    have houtside := Text.toNat_of_isBlank hblank
    have hinside := hp c h
    omega

theorem isDigit_iff {c : Char} : c.isDigit = true ↔ 0x30 ≤ c.toNat ∧ c.toNat ≤ 0x39 := by
  simp only [Char.isDigit, Bool.and_eq_true, decide_eq_true_eq, ge_iff_le, UInt32.le_iff_toNat_le,
    Char.toNat_val, Char.reduceToNat]

theorem isAlpha_iff {c : Char} : c.isAlpha = true ↔
    0x41 ≤ c.toNat ∧ c.toNat ≤ 0x5A ∨ 0x61 ≤ c.toNat ∧ c.toNat ≤ 0x7A := by
  have hdef : c.isAlpha = (decide ('A'.val ≤ c.val ∧ c.val ≤ 'Z'.val) ||
      (decide ('a'.val ≤ c.val) && decide (c.val ≤ 'z'.val))) := rfl
  simp only [hdef, Bool.or_eq_true, Bool.and_eq_true, decide_eq_true_eq, UInt32.le_iff_toNat_le,
    Char.toNat_val, Char.reduceToNat]

theorem visible_continuesName : Visible continuesName := by
  intro c hc
  simp only [continuesName, Char.isAlphanum, Bool.or_eq_true, isAlpha_iff, isDigit_iff,
    beq_iff_eq] at hc
  rcases hc with hc | rfl
  · omega
  · decide

theorem continuesName_of_isDigit {c : Char} (h : c.isDigit = true) : continuesName c = true := by
  rw [continuesName, Char.isAlphanum, h, Bool.or_true, Bool.true_or]

theorem continuesName_of_isHexDigit {c : Char} (h : Number.isHexDigit c = true) :
    continuesName c = true := by
  simp only [Number.isHexDigit, continuesName, Char.isAlphanum, Bool.or_eq_true, Bool.and_eq_true,
    isAlpha_iff, isDigit_iff, decide_eq_true_eq, Char.le_def, UInt32.le_iff_toNat_le,
    Char.toNat_val, Char.reduceToNat] at *
  refine .inl ?_
  omega

theorem visible_isDigit : Visible Char.isDigit :=
  fun c hc => visible_continuesName c (continuesName_of_isDigit hc)

theorem visible_isHexDigit : Visible Number.isHexDigit :=
  fun c hc => visible_continuesName c (continuesName_of_isHexDigit hc)

theorem visible_continuesUuid : Visible continuesUuid := by
  intro c hc
  rcases Bool.or_eq_true_iff.mp hc with hc | hc
  · exact visible_isHexDigit c hc
  · rw [beq_iff_eq.mp hc]
    decide

/-- The text `rest'` stops every run that `rest` stops, and continues a number by a fraction only
if `rest` does. -/
structure StopsAs (rest' rest : List Char) : Prop where
  run : ∀ p, Visible p → (∀ c ∈ rest.head?, p c = false) → ∀ c ∈ rest'.head?, p c = false
  fraction : Numeral.fraction rest = [] → Numeral.fraction rest' = []

namespace StopsAs

variable {rest rest' : List Char}

/-- White space and the end of the text stop whatever any text stops. -/
theorem of_blank (h : ∀ c ∈ rest'.head?, Text.isBlank c = true) (rest : List Char) :
    StopsAs rest' rest := by
  constructor
  · intro p hp _ c hc
    by_contra hpc
    have hvisible := hp.isBlank_eq_false (Bool.not_eq_false _ ▸ hpc)
    rw [h c hc] at hvisible
    cases hvisible
  · intro _
    match rest' with
    | [] => rfl
    | c :: cs =>
      unfold Numeral.fraction
      split
      · rename_i heq
        cases heq
        exact absurd (h '.' rfl) (by decide)
      · rfl

/-- The same text in front of both. After a point it is the run of digits that has to stop. -/
theorem append (h : StopsAs rest' rest) (front : List Char) :
    StopsAs (front ++ rest') (front ++ rest) := by
  have hrun : ∀ p, Visible p → (∀ c ∈ (front ++ rest).head?, p c = false) →
      ∀ c ∈ (front ++ rest').head?, p c = false := by
    cases front with
    | nil => exact h.run
    | cons c front => exact fun p _ hstop => hstop
  refine ⟨hrun, fun hnone => ?_⟩
  match front with
  | [] => exact h.fraction hnone
  | c :: front =>
    by_cases hc : c = '.'
    · subst hc
      have hdigits : (front ++ rest).takeWhile Char.isDigit = [] := hnone
      have hstop := stop_of_takeWhile_eq_nil hdigits
      show (front ++ rest').takeWhile Char.isDigit = []
      apply takeWhile_eq_nil_of_stop
      cases front with
      | nil => exact h.run _ visible_isDigit hstop
      | cons d front => exact hstop
    · rw [List.cons_append, Numeral.fraction]
      rintro _ heq
      exact hc (List.cons.inj heq).1

theorem takeWhile (h : StopsAs rest' rest) {p : Char → Bool} (hp : Visible p) {run : List Char}
    (hrun : (run ++ rest).takeWhile p = run) :
    (run ++ rest').takeWhile p = run ∧ (run ++ rest').dropWhile p = rest' := by
  obtain ⟨hall, hstop⟩ := stop_of_takeWhile_append hrun
  have hstop' := h.run p hp hstop
  exact ⟨takeWhile_append_stop hall hstop', dropWhile_append_stop hall hstop'⟩

/-- The rest of a run may be exchanged. -/
theorem takeWhile_dropWhile {cs : List Char} {p : Char → Bool} (h : StopsAs rest' (cs.dropWhile p))
    (hp : Visible p) :
    (cs.takeWhile p ++ rest').takeWhile p = cs.takeWhile p ∧
      (cs.takeWhile p ++ rest').dropWhile p = rest' :=
  h.takeWhile hp (by rw [List.takeWhile_append_dropWhile])

theorem head?_ne (h : StopsAs rest' rest) {d : Char} (hd : 0x20 < d.toNat ∧ d.toNat < 0x7F)
    (hne : rest.head? ≠ some d) : rest'.head? ≠ some d := by
  have hvisible : Visible (· == d) := by
    intro c hc
    rw [beq_iff_eq.mp hc]
    exact hd
  have hstop : ∀ c ∈ rest.head?, (c == d) = false := by
    intro c hc
    rw [beq_eq_false_iff_ne]
    rintro rfl
    exact hne hc
  intro hhead
  have hnext := h.run _ hvisible hstop d hhead
  rw [beq_self_eq_true] at hnext
  cases hnext

end StopsAs
end Lexeme
end PredicateLang
