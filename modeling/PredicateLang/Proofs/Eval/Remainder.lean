import Mathlib.Data.Int.Basic
import PredicateLang.Proofs.Eval.Stackless
import PredicateLang.Proofs.Number.Truncation

/-!
# Remainders

A remainder is taken on the operands truncated to signed 64-bit integers. It fails for a
zero divisor and where the quotient would leave their range, which are the cases that the
truncated operands decide alone. Everywhere else it is the one integer that makes a
multiple of the divisor up to the dividend, is smaller than the divisor, and is zero or has
the sign of the dividend.
-/

namespace PredicateLang

/-- The numeric values, each with the double that it converts to. -/
inductive Value.Numeric : Value → Float → Prop where
  | integer (n : Int64) : Numeric (.integer n) n.toFloat
  | unsigned (n : UInt64) : Numeric (.unsigned n) n.toFloat
  | number (x : Float) : Numeric (.number x) x

theorem Value.toNumber_eq_ok_iff {a : Value} {u : Float} : a.toNumber = .ok u ↔ a.Numeric u := by
  constructor
  · intro h
    cases a with
    | integer n => cases h; exact .integer _
    | unsigned n => cases h; exact .unsigned _
    | number x => cases h; exact .number _
    | _ => cases h
  · rintro (n | n | x) <;> rfl

namespace Arithmetic

/-- What a multiple of `y` leaves of `x`, if it is smaller than `y` and has the sign of `x`. -/
structure IsRemainder (x y r : Int) : Prop where
  exists_quotient : ∃ q, x = q * y + r
  lt_divisor : r.natAbs < y.natAbs
  zero_or_sign : r = 0 ∨ r.sign = x.sign

theorem isRemainder_tmod (x : Int) {y : Int} (hy : y ≠ 0) : IsRemainder x y (x.tmod y) where
  exists_quotient := ⟨x.tdiv y, (Int.tdiv_mul_add_tmod x y).symm⟩
  lt_divisor := by
    rw [Int.natAbs_tmod]
    exact Nat.mod_lt _ (Int.natAbs_pos.mpr hy)
  zero_or_sign := by
    rw [Int.sign_tmod]
    by_cases hdvd : y ∣ x
    · exact .inl (Int.tmod_eq_zero_of_dvd hdvd)
    · exact .inr (if_neg hdvd)

theorem IsRemainder.unique {x y r r' : Int} (h : IsRemainder x y r) (h' : IsRemainder x y r') :
    r = r' := by
  obtain ⟨⟨q, hq⟩, hlt, hsign⟩ := h
  obtain ⟨⟨q', hq'⟩, hlt', hsign'⟩ := h'
  have hdvd : y ∣ r - r' := ⟨q' - q, by linarith [mul_comm q y, mul_comm q' y, mul_sub y q' q]⟩
  -- Neither has the other sign than `x`, so they are less than `y` apart.
  have hnear : (r - r').natAbs < y.natAbs := by
    rcases lt_trichotomy x 0 with hx | hx | hx
    · rw [Int.sign_eq_neg_one_of_neg hx, Int.sign_eq_neg_one_iff_neg] at hsign hsign'
      omega
    · rw [hx, Int.sign_zero, Int.sign_eq_zero_iff_zero] at hsign hsign'
      omega
    · rw [Int.sign_eq_one_of_pos hx, Int.sign_eq_one_iff_pos] at hsign hsign'
      omega
  have hzero := Int.eq_zero_of_dvd_of_natAbs_lt_natAbs hdvd hnear
  omega

theorem truncatedRemainder_of_not {x y : Int} (h : ¬ (y = 0 ∨ x = Number.minSigned ∧ y = -1))
    (hy : Number.minSigned ≤ y ∧ y ≤ Number.maxSigned) :
    ∃ r : Int64, truncatedRemainder x y = .ok (.integer r) ∧ IsRemainder x y r.toInt := by
  have hrem : IsRemainder x y (x.tmod y) := isRemainder_tmod x fun hzero => h (.inl hzero)
  have hlt := hrem.lt_divisor
  simp only [Number.minSigned, Number.maxSigned] at hy
  have hfits : (Int64.ofInt (x.tmod y)).toInt = x.tmod y :=
    Int64.toInt_ofInt_of_le (by omega) (by omega)
  refine ⟨Int64.ofInt (x.tmod y), if_neg h, ?_⟩
  rw [hfits]
  exact hrem

end Arithmetic

variable {σ : Type}

theorem evaluateAgainst_arithmetic (world : World σ) (op : Arithmetic) {left right : Expr}
    {base a b : Value} {s s₁ s₂ : σ} {u v : Float}
    (hleft : evaluateAgainst world left base s = (.ok a, s₁))
    (hright : evaluateAgainst world right base s₁ = (.ok b, s₂))
    (ha : a.Numeric u) (hb : b.Numeric v) :
    evaluateAgainst world (.binary (.arithmetic op) left right) base s = (op.apply u v, s₂) := by
  have hu := Value.toNumber_eq_ok_iff.mpr ha
  have hv := Value.toNumber_eq_ok_iff.mpr hb
  simp only [evaluateAgainst, AskM.bind_apply, hleft, AskM.lift, hu, hright, hv]

/-- Operands that are numeric are converted, and the operator is applied to the doubles. -/
theorem Interpreter.evaluate_arithmetic (world : World σ) (op : Arithmetic) {left right : Expr}
    {m m₁ m₂ : Interpreter σ} {a b : Value} {u v : Float}
    (hleft : m.evaluate world left = (.ok a, m₁)) (hright : m₁.evaluate world right = (.ok b, m₂))
    (ha : a.Numeric u) (hb : b.Numeric v) :
    (m.evaluate world (.binary (.arithmetic op) left right)).1 = op.apply u v := by
  obtain ⟨_, heq, -⟩ := evaluate_eq world (.binary (.arithmetic op) left right) m
  obtain ⟨_, heqLeft, -⟩ := evaluate_eq world left m
  obtain ⟨_, heqRight, -⟩ := evaluate_eq world right m₁
  -- The right operand is evaluated in the same frame, after what the left one did to the host.
  obtain ⟨hvalueLeft, rfl⟩ := Prod.mk.inj (heqLeft.symm.trans hleft)
  obtain ⟨hvalueRight, -⟩ := Prod.mk.inj (heqRight.symm.trans hright)
  rw [heq, evaluateAgainst_arithmetic world op (Prod.ext hvalueLeft rfl)
    (Prod.ext hvalueRight rfl) ha hb]

open Arithmetic in
/-- Where both operands of a remainder are numeric, it is decided by their doubles, each truncated
to a signed 64-bit integer. It fails exactly where these have no remainder, and the error names
them. Otherwise it is the one remainder that they have, as an integer. -/
theorem evaluate_remainder (world : World σ) {left right : Expr} {m m₁ m₂ : Interpreter σ}
    {a b : Value} {u v : Float}
    (hleft : m.evaluate world left = (.ok a, m₁)) (hright : m₁.evaluate world right = (.ok b, m₂))
    (ha : a.Numeric u) (hb : b.Numeric v) :
    let x := Number.truncate u
    let y := Number.truncate v
    let result := (m.evaluate world (.binary (.arithmetic .remainder) left right)).1
    (Number.Truncates u.toModel.unpack x ∧ Number.Truncates v.toModel.unpack y) ∧
      (result = .error (.invalidRemainder x y) ↔ y = 0 ∨ x = Number.minSigned ∧ y = -1) ∧
      (¬ (y = 0 ∨ x = Number.minSigned ∧ y = -1) → ∃ r : Int64,
        result = .ok (.integer r) ∧ IsRemainder x y r.toInt ∧
          ∀ r', IsRemainder x y r' → r' = r.toInt) := by
  intro x y result
  have hresult : result = truncatedRemainder x y :=
    Interpreter.evaluate_arithmetic world .remainder hleft hright ha hb
  refine ⟨⟨Number.truncates_truncate u, Number.truncates_truncate v⟩, ?_, fun h => ?_⟩
  · rw [hresult]
    constructor
    · intro herror
      by_contra h
      obtain ⟨r, hr, -⟩ := truncatedRemainder_of_not h (Number.truncate_bounds v)
      cases hr.symm.trans herror
    · exact fun h => if_pos h
  · obtain ⟨r, hr, hrem⟩ := truncatedRemainder_of_not h (Number.truncate_bounds v)
    exact ⟨r, hresult.trans hr, hrem, fun r' h' => h'.unique hrem⟩

/-- The remainder has the sign of the dividend. A dividend below all 64-bit integers is truncated to
the least one, which has no remainder for minus one. -/
theorem evaluate_remainder_negative :
    let world : World Unit := fun ref => .bare ref.typeName
    let m := Interpreter.start .nil ()
    let remainder (x y : Float) := (m.evaluate world
      (.binary (.arithmetic .remainder) (.literal (.number x)) (.literal (.number y)))).1
    (∃ r : Int64, remainder (-7.9) 2.5 = .ok (.integer r) ∧ r.toInt = -1) ∧
      remainder (-1e300) (-1.5) = .error (.invalidRemainder (-9223372036854775808) (-1)) := by
  intro world m remainder
  have hliteral (m : Interpreter Unit) (x : Float) :
      m.evaluate world (.literal (.number x)) = (.ok (.number x), _) := rfl
  have hrun (x y : Float) := evaluate_remainder world (hliteral m x) (hliteral _ y)
    (.number x) (.number y)
  constructor
  · have hx : Number.truncate (-7.9) = -7 := by decide +kernel
    have hy : Number.truncate 2.5 = 2 := by decide +kernel
    obtain ⟨-, -, h⟩ := hrun (-7.9) 2.5
    rw [hx, hy] at h
    obtain ⟨r, hr, -, hunique⟩ := h (by decide)
    exact ⟨r, hr, (hunique (-1) ⟨⟨-3, rfl⟩, by decide, .inr rfl⟩).symm⟩
  · have hx : Number.truncate (-1e300) = Number.minSigned := by decide +kernel
    have hy : Number.truncate (-1.5) = -1 := by decide +kernel
    obtain ⟨-, h, -⟩ := hrun (-1e300) (-1.5)
    rw [hx, hy] at h
    exact h.mpr (.inr ⟨rfl, rfl⟩)

end PredicateLang
