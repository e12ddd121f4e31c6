import Mathlib.Algebra.Order.Field.Power
import Mathlib.Data.Rat.Floor
import Mathlib.Tactic.Linarith
import Mathlib.Tactic.Positivity
import PredicateLang.Number.Binary64

/-!
# Truncating doubles

A double that is finite is a rational number. Truncated, it is that number rounded toward
zero if this is a signed 64-bit integer, and else the end of their range that it lies
beyond. Infinities are truncated to the ends too, and what is not a number to zero.
-/

namespace PredicateLang.Number

open Float.Model

/-- A rational number without its fractional part. -/
def towardZero (q : ℚ) : Int :=
  if 0 ≤ q then ⌊q⌋ else ⌈q⌉

/-- The signed 64-bit integer that a double is truncated to. -/
inductive Truncates : UnpackedFloat → Int → Prop where
  | notANumber : Truncates .notANumber 0
  | negativeInfinity : Truncates (.infinity .negative) minSigned
  | positiveInfinity : Truncates (.infinity .positive) maxSigned
  | zero (s : UnpackedFloat.Sign) : Truncates (.zero s) 0
  | finite (s : UnpackedFloat.Sign) (m : Nat) (e : Int) (hm : 0 < m) :
      Truncates (.finite s m e hm) (saturate (towardZero (s.apply m * 2 ^ e)))

theorem Magnitude.floor_eq (m : Magnitude) :
    (m.floor : Int) = ⌊(m.significand : ℚ) * 2 ^ m.exponent⌋ := by
  obtain ⟨s, e, narrow⟩ := m
  rcases Int.le_total 0 e with h | h
  · obtain ⟨n, rfl⟩ := Int.eq_ofNat_of_zero_le h
    have hzero : (-(n : Int)).toNat = 0 := by omega
    simp only [floor, Int.toNat_natCast, hzero, Nat.shiftRight_zero, Nat.shiftLeft_eq,
      zpow_natCast]
    exact_mod_cast (Int.floor_natCast (R := ℚ) (s * 2 ^ n)).symm
  · obtain ⟨n, hn⟩ := Int.eq_ofNat_of_zero_le (Int.neg_nonneg_of_nonpos h)
    obtain rfl : e = -n := by omega
    have hzero : (-(n : Int)).toNat = 0 := by omega
    simp only [floor, neg_neg, Int.toNat_natCast, hzero, Nat.shiftLeft_zero,
      Nat.shiftRight_eq_div_pow, zpow_neg, zpow_natCast, ← div_eq_mul_inv]
    exact_mod_cast (Rat.floor_natCast_div_natCast s (2 ^ n)).symm

theorem towardZero_apply (s : UnpackedFloat.Sign) (m : Nat) (e : Int) :
    towardZero (s.apply m * 2 ^ e) = s.apply ⌊(m : ℚ) * 2 ^ e⌋ := by
  have hnonneg : 0 ≤ (m : ℚ) * 2 ^ e := by positivity
  cases s with
  | positive => simp [UnpackedFloat.Sign.apply, towardZero, hnonneg]
  | negative =>
    simp only [UnpackedFloat.Sign.apply, towardZero, Int.cast_neg, Int.cast_natCast, neg_mul]
    rw [Int.ceil_neg]
    split
    · have hzero : (m : ℚ) * 2 ^ e = 0 := by linarith
      simp [hzero]
    · rfl

/-- The sign that the sign bit of a double stands for. -/
def signOf (negative : Bool) : UnpackedFloat.Sign :=
  if negative then .negative else .positive

section Fields

variable (bits : UInt64)

theorem toNat_unpackExponent :
    (@UnpackedFloat.unpackExponent Format.binary64 bits.toBitVec).toNat =
      (bits.toNat >>> 52) % 0x800 := by
  simp [UnpackedFloat.unpackExponent]

theorem toNat_unpackMantissa :
    (@UnpackedFloat.unpackMantissa Format.binary64 bits.toBitVec).toNat =
      bits.toNat % Binary64.leadingBit := by
  simp [UnpackedFloat.unpackMantissa, Binary64.leadingBit]

theorem unpackExponent_eq_iff (e : BitVec 11) :
    @UnpackedFloat.unpackExponent Format.binary64 bits.toBitVec = e ↔
      (bits.toNat >>> 52) % 0x800 = e.toNat := by
  rw [← toNat_unpackExponent]
  exact BitVec.toNat_inj.symm

theorem unpackMantissa_eq_zero_iff :
    @UnpackedFloat.unpackMantissa Format.binary64 bits.toBitVec = 0#52 ↔
      bits.toNat % Binary64.leadingBit = 0 := by
  rw [← toNat_unpackMantissa]
  exact BitVec.toNat_inj.symm

/-- A leading one before the fraction adds its place value. -/
theorem toNat_one_append_unpackMantissa :
    (1#1 ++ @UnpackedFloat.unpackMantissa Format.binary64 bits.toBitVec).toNat =
      Binary64.leadingBit + bits.toNat % Binary64.leadingBit := by
  have hlt : bits.toNat % Binary64.leadingBit < 2 ^ 52 := Nat.mod_lt _ (by decide)
  rw [BitVec.toNat_append, toNat_unpackMantissa]
  exact (Nat.two_pow_add_eq_or_of_lt hlt 1).symm

theorem ofBitVec_unpackSign :
    UnpackedFloat.Sign.ofBitVec (@UnpackedFloat.unpackSign Format.binary64 bits.toBitVec) =
      signOf (bits.toNat.testBit 63) := by
  have hbit : (@UnpackedFloat.unpackSign Format.binary64 bits.toBitVec).toNat =
      bits.toNat / 2 ^ 63 % 2 := by
    show (bits.toBitVec.extractLsb 63 63).toNat = _
    simp [Nat.shiftRight_eq_div_pow]
  have htest : bits.toNat.testBit 63 = decide (bits.toNat / 2 ^ 63 % 2 = 1) :=
    Nat.testBit_eq_decide_div_mod_eq
  have hzero : @UnpackedFloat.unpackSign Format.binary64 bits.toBitVec = 0#1 ↔
      bits.toNat / 2 ^ 63 % 2 = 0 := by
    rw [← BitVec.toNat_inj, hbit]
    rfl
  simp only [UnpackedFloat.Sign.ofBitVec, hzero, signOf, htest]
  rcases Nat.mod_two_eq_zero_or_one (bits.toNat / 2 ^ 63) with h | h <;> rw [h] <;> rfl

end Fields

/-- Unpacked, and read as exact numbers, a double is the same. -/
inductive Agree : UnpackedFloat → Binary64 → Prop where
  | nan : Agree .notANumber .nan
  | infinite (negative : Bool) : Agree (.infinity (signOf negative)) (.infinite negative)
  | zero (negative : Bool) (e : Int) (narrow : Bool) :
      Agree (.zero (signOf negative)) (.finite negative ⟨0, e, narrow⟩)
  | finite (negative : Bool) (m : Nat) (e : Int) (narrow : Bool) (hm : 0 < m) :
      Agree (.finite (signOf negative) m e hm) (.finite negative ⟨m, e, narrow⟩)

theorem Agree.finite_of_eq {s : UnpackedFloat.Sign} {m m' : Nat} {e e' : Int} {negative : Bool}
    (hs : s = signOf negative) (hm : m = m') (he : e = e') (hpos : 0 < m) (narrow : Bool) :
    Agree (.finite s m e hpos) (.finite negative ⟨m', e', narrow⟩) := by
  subst hs hm he
  exact .finite _ _ _ _ _

/-- Sign, exponent and fraction are taken from the same bits in both ways. -/
theorem agree_ofBits (bits : UInt64) :
    Agree (UnpackedFloat.unpack Format.binary64 bits.toBitVec) (Binary64.ofBits bits) := by
  have hsign := ofBitVec_unpackSign bits
  have hexponent := toNat_unpackExponent bits
  have hlast : _ ↔ (bits.toNat >>> 52) % 0x800 = 2047 := unpackExponent_eq_iff bits (-1#11)
  have hfirst : _ ↔ (bits.toNat >>> 52) % 0x800 = 0 := unpackExponent_eq_iff bits 0#11
  have hempty := unpackMantissa_eq_zero_iff bits
  unfold Binary64.ofBits UnpackedFloat.unpack
  dsimp only
  by_cases hspecial : (bits.toNat >>> 52) % 0x800 = 2047
  · rw [if_pos (hlast.mpr hspecial), if_pos hspecial, hsign]
    by_cases hzero : bits.toNat % Binary64.leadingBit = 0
    · rw [if_pos (hempty.mpr hzero), if_pos hzero]
      exact .infinite _
    · rw [if_neg (mt hempty.mp hzero), if_neg hzero]
      exact .nan
  · rw [if_neg (mt hlast.mp hspecial), if_neg hspecial]
    by_cases hsmall : (bits.toNat >>> 52) % 0x800 = 0
    · rw [if_pos (hfirst.mpr hsmall), if_pos hsmall]
      by_cases hzero : bits.toNat % Binary64.leadingBit = 0
      · rw [dif_pos (hempty.mpr hzero), hsign, hzero]
        exact .zero _ _ _
      · rw [dif_neg (mt hempty.mp hzero)]
        refine .finite_of_eq hsign (toNat_unpackMantissa bits) ?_ _ _
        rw [hexponent, hsmall]
        rfl
    · -- Except next to zero, a leading one is put before the fraction.
      rw [if_neg (mt hfirst.mp hsmall), if_neg hsmall]
      refine .finite_of_eq hsign (toNat_one_append_unpackMantissa bits) ?_ _ _
      rw [hexponent]
      rfl

/-- Truncating a double goes by its exact value. -/
theorem truncates_truncate (x : Float) : Truncates x.toModel.unpack (truncate x) := by
  have hagree : Agree x.toModel.unpack (Binary64.ofFloat x) := agree_ofBits x.toModel.toBits
  unfold truncate
  generalize Binary64.ofFloat x = b at *
  generalize x.toModel.unpack = u at *
  cases hagree with
  | nan => exact .notANumber
  | infinite negative => cases negative <;> constructor
  | zero negative e narrow =>
    have hfloor : Magnitude.floor ⟨0, e, narrow⟩ = 0 := by simp [Magnitude.floor]
    cases negative <;> simp only [hfloor] <;> exact .zero _
  | finite negative m e narrow hm =>
    have htoward := towardZero_apply (signOf negative) m e
    rw [← Magnitude.floor_eq ⟨m, e, narrow⟩] at htoward
    have htruncates := Truncates.finite (signOf negative) m e hm
    rw [htoward] at htruncates
    cases negative <;> exact htruncates

end PredicateLang.Number
