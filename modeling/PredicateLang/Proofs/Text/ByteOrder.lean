import Mathlib.Data.List.Lex
import Mathlib.Data.String.Basic
import Mathlib.Order.Monotone.Basic

/-!
# The order of bytes

Texts are ordered by their characters. The bytes of their UTF-8 forms are in the same order, since
of two characters the larger one has the larger bytes: more of them raise the leading byte, and
bytes of equal number are digits of the code point. So texts may be sorted either way.
-/

namespace PredicateLang.Text

/-- The bytes of a text in UTF-8, as numbers. -/
def bytes (s : String) : List Nat :=
  s.toByteArray.data.toList.map UInt8.toNat

/-- The bytes of one character. -/
def charBytes (c : Char) : List Nat :=
  (String.utf8EncodeChar c).map UInt8.toNat

theorem bytes_eq (s : String) : bytes s = s.toList.flatMap charBytes := by
  have hs : s.toByteArray = s.toList.utf8Encode := by
    rw [← String.toByteArray_ofList, String.ofList_toList]
  rw [bytes, hs, List.utf8Encode, List.toList_data_toByteArray, List.map_flatMap]
  rfl

theorem toNat_lt (c : Char) : c.toNat < 0x110000 := by
  rcases c.valid with h | h
  · exact Nat.lt_trans h (by decide)
  · exact h.2

/-- A character has a leading byte and up to three more, each with six bits of its code point. -/
theorem charBytes_eq (c : Char) : charBytes c =
    if c.toNat ≤ 0x7f then [c.toNat]
    else if c.toNat ≤ 0x7ff then [0xc0 + c.toNat / 64, 0x80 + c.toNat % 64]
    else if c.toNat ≤ 0xffff then
      [0xe0 + c.toNat / 4096, 0x80 + c.toNat / 64 % 64, 0x80 + c.toNat % 64]
    else
      [0xf0 + c.toNat / 262144, 0x80 + c.toNat / 4096 % 64, 0x80 + c.toNat / 64 % 64,
        0x80 + c.toNat % 64] := by
  have hc := toNat_lt c
  have hval : c.val.toNat = c.toNat := rfl
  simp only [charBytes, String.utf8EncodeChar, hval, apply_ite (List.map UInt8.toNat),
    List.map_cons, List.map_nil, UInt8.toNat_ofNat']
  -- No byte reaches 256, so that nothing is cut off.
  split_ifs <;> simp only [List.cons.injEq, and_true] <;> omega

theorem charBytes_ne_nil (c : Char) : charBytes c ≠ [] := by
  rw [charBytes_eq]
  split_ifs <;> exact List.cons_ne_nil _ _

/-- The bytes of two characters tell them apart before either has ended. -/
theorem charBytes_append_lt {c d : Char} (h : c < d) (more more' : List Nat) :
    charBytes c ++ more < charBytes d ++ more' := by
  have hcd : c.toNat < d.toNat := h
  have hd := toNat_lt d
  rw [charBytes_eq, charBytes_eq]
  generalize c.toNat = m at *
  generalize d.toNat = n at *
  split_ifs <;> simp only [List.cons_append, List.nil_append, List.cons_lt_cons_iff] <;> omega

theorem flatMap_charBytes_lt {a b : List Char} (h : a < b) :
    a.flatMap charBytes < b.flatMap charBytes := by
  induction h with
  | @nil c cs =>
    obtain ⟨byte, more, hbytes⟩ := List.exists_cons_of_ne_nil (charBytes_ne_nil c)
    rw [List.flatMap_nil, List.flatMap_cons, hbytes]
    exact .nil
  | rel hlt => exact charBytes_append_lt hlt _ _
  | cons _ ih => exact List.append_left_lt ih

/-- The larger text has the larger bytes. -/
theorem bytes_strictMono : StrictMono bytes := by
  intro a b h
  rw [bytes_eq, bytes_eq]
  exact flatMap_charBytes_lt (String.lt_iff_toList_lt.mp h)

/-- Whether a text comes before another one by its bytes, or is the same. -/
def notAfter (a b : String) : Bool :=
  decide (bytes a ≤ bytes b)

theorem notAfter_iff {a b : String} : notAfter a b = true ↔ a ≤ b := by
  rw [notAfter, decide_eq_true_iff, bytes_strictMono.le_iff_le]

/-- Texts sorted by their bytes. -/
def inByteOrder (texts : List String) : List String :=
  texts.mergeSort notAfter

theorem mem_inByteOrder {s : String} {texts : List String} : s ∈ inByteOrder texts ↔ s ∈ texts :=
  List.mem_mergeSort

theorem pairwise_inByteOrder {texts : List String} (h : texts.Nodup) :
    (inByteOrder texts).Pairwise (· < ·) := by
  have hsorted : (inByteOrder texts).Pairwise fun a b => notAfter a b = true := by
    refine List.pairwise_mergeSort (fun a b c hab hbc => ?_) (fun a b => ?_) texts
    · exact notAfter_iff.mpr ((notAfter_iff.mp hab).trans (notAfter_iff.mp hbc))
    · rw [Bool.or_eq_true, notAfter_iff, notAfter_iff]
      exact le_total a b
  have hnodup : (inByteOrder texts).Nodup := (List.mergeSort_perm texts notAfter).nodup_iff.mpr h
  exact hsorted.imp₂ (fun a b hle hne => lt_of_le_of_ne (notAfter_iff.mp hle) hne) hnodup

end PredicateLang.Text
