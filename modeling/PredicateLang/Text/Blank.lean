import PredicateLang.Text.Ranges

/-!
# White space

Characters with the Unicode property White_Space separate tokens and surround
the lines that a user types. They carry no meaning of their own.
-/

namespace PredicateLang.Text

/-- The 25 code points with the property White_Space. -/
def blankRanges : Ranges :=
  [(0x09, 0x0D), (0x20, 0x20), (0x85, 0x85), (0xA0, 0xA0), (0x1680, 0x1680), (0x2000, 0x200A),
   (0x2028, 0x2029), (0x202F, 0x202F), (0x205F, 0x205F), (0x3000, 0x3000)]

/-- Whether `c` is white space. -/
def isBlank (c : Char) : Bool :=
  blankRanges.contains c

/-- `text` without the white space at its two ends. -/
def trim (text : List Char) : List Char :=
  ((text.dropWhile isBlank).reverse.dropWhile isBlank).reverse

theorem trim_append_blank {c : Char} (h : isBlank c = true) (text : List Char) :
    trim (text ++ [c]) = trim text := by
  have hblank : [c].dropWhile isBlank = [] := by simp [h]
  rw [trim, trim, List.dropWhile_append]
  split
  · rename_i hempty
    rw [hblank, List.isEmpty_iff.mp hempty]
  · rw [List.reverse_append, List.reverse_singleton, List.singleton_append,
      List.dropWhile_cons_of_pos h]

end PredicateLang.Text
