import PredicateLang.Number.Binary64

/-!
# The fewest digits that identify a double

The reals that round to a double form an interval around it. Among the decimals
in that interval the shortest is chosen, and of several shortest ones the
nearest; two that are equally near are decided away from zero. All comparisons
are between natural numbers.
-/

namespace PredicateLang.Number

/-- The decimal number `digits * 10 ^ exponent`. -/
structure Decimal where
  digits : Nat
  exponent : Int
  deriving Repr, DecidableEq

/-- Compares `a * 10 ^ i` with `b * 2 ^ j`. -/
def compareScaled (a : Nat) (i : Int) (b : Nat) (j : Int) : Ordering :=
  compare ((a * Nat.pow 10 i.toNat) <<< (-j).toNat) ((b * Nat.pow 10 (-i).toNat) <<< j.toNat)

namespace Magnitude

/-- Whether the decimal lies in the interval of reals that round to `m`, whose ends belong
to it exactly when the significand is even. -/
def identifiedBy (m : Magnitude) (d : Decimal) : Bool :=
  let lower := if m.narrowBelow then 4 * m.significand - 1 else 4 * m.significand - 2
  let upper := 4 * m.significand + 2
  let ends := m.significand % 2 == 0
  let fromBelow := compareScaled d.digits d.exponent lower (m.exponent - 2)
  let fromAbove := compareScaled d.digits d.exponent upper (m.exponent - 2)
  (fromBelow == .gt || (ends && fromBelow == .eq))
    && (fromAbove == .lt || (ends && fromAbove == .eq))

/-- Corrects the guess `k` upward, at most `steps` times, until `m < 10 ^ k`. -/
def raiseScale (m : Magnitude) : Nat → Int → Int
  | 0, k => k
  | steps + 1, k =>
    if compareScaled 1 k m.significand m.exponent == .gt then k else raiseScale m steps (k + 1)

/-- The least `k` with `m < 10 ^ k`, for a magnitude other than zero. The binary logarithm
gives a guess that is at most a few too small. -/
def scale (m : Magnitude) : Int :=
  let bits := (Nat.log2 m.significand : Int) + m.exponent
  raiseScale m 8 (bits * 30103 / 100000 - 2)

/-- The multiple of `10 ^ e` next below `m`, counted in units of `10 ^ e`. -/
def unitsBelow (m : Magnitude) (e : Int) : Nat :=
  ((m.significand * Nat.pow 10 (-e).toNat) <<< m.exponent.toNat)
    / (Nat.pow 10 e.toNat <<< (-m.exponent).toNat)

/-- The neighbour of `m` among the multiples of `10 ^ e` that identifies it, the nearer one
if both do, and the larger one if they are equally near. -/
def onGrid? (m : Magnitude) (e : Int) : Option Decimal :=
  let below : Decimal := ⟨m.unitsBelow e, e⟩
  let above : Decimal := ⟨m.unitsBelow e + 1, e⟩
  match m.identifiedBy below, m.identifiedBy above with
  | false, false => none
  | true, false => some below
  | false, true => some above
  | true, true =>
    -- the midpoint of the two neighbours against `m`
    if compareScaled (2 * below.digits + 1) e m.significand (m.exponent + 1) == .gt
    then some below else some above

/-- All digits of `m`. -/
def exact (m : Magnitude) : Decimal :=
  ⟨(m.significand * Nat.pow 5 (-m.exponent).toNat) <<< m.exponent.toNat, min m.exponent 0⟩

/-- The shortest decimal that identifies `m`, a magnitude other than zero. Seventeen digits
are enough for every double. -/
def shortest (m : Magnitude) : Decimal :=
  let k := m.scale
  ((List.range 17).findSome? fun n : Nat => m.onGrid? (k - (n + 1 : Nat))).getD m.exact

end Magnitude

theorem Magnitude.onGrid?_identifies {m : Magnitude} {e : Int} {d : Decimal}
    (h : m.onGrid? e = some d) : m.identifiedBy d = true := by
  unfold onGrid? at h
  dsimp only at h
  split at h <;> try split at h
  all_goals simp_all

end PredicateLang.Number
