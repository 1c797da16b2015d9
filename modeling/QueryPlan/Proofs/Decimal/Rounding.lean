import Mathlib.Algebra.Order.Field.Power
import Mathlib.Algebra.Order.Field.Rat
import Mathlib.Tactic.FieldSimp
import Mathlib.Tactic.Linarith
import Mathlib.Tactic.Positivity
import Mathlib.Tactic.Ring
import QueryPlan.Decimal.Shortest

/-!
# Decimals that round to a number

The shortest decimal of a number lies in the interval of the reals that round to
it.  The intervals of different numbers do not meet: the upper end of one is the
lower end of the next, and of two neighbours only one owns the common end.  So
the shortest decimal tells which number it was made of.
-/

namespace QueryPlan

namespace Decimal

def value (decimal : Decimal) : ℚ :=
  decimal.digits * (10 : ℚ) ^ decimal.exponent

/-- The rationals in an interval. -/
def Interval.Contains (i : Interval) (point : ℚ) : Prop :=
  (i.low * (2 : ℚ) ^ i.scale < point ∨
      i.closed = true ∧ i.low * (2 : ℚ) ^ i.scale = point) ∧
    (point < i.high * (2 : ℚ) ^ i.scale ∨
      i.closed = true ∧ point = i.high * (2 : ℚ) ^ i.scale)

/-- A power is told by its two halves, of which one is trivial. -/
theorem zpow_mul_pow_toNat_neg {base : ℚ} (hbase : base ≠ 0) (exponent : Int) :
    base ^ exponent * base ^ (-exponent).toNat = base ^ exponent.toNat := by
  rcases Int.le_total 0 exponent with hsign | hsign
  · obtain ⟨n, rfl⟩ := Int.eq_ofNat_of_zero_le hsign
    have hneg : (-(n : Int)).toNat = 0 := by omega
    rw [hneg]
    simp
  · obtain ⟨n, hn⟩ := Int.eq_ofNat_of_zero_le (Int.neg_nonneg_of_nonpos hsign)
    obtain rfl : exponent = -(n : Int) := by omega
    have hneg : (-(n : Int)).toNat = 0 := by omega
    rw [neg_neg, Int.toNat_natCast, hneg, zpow_neg, zpow_natCast, pow_zero]
    exact inv_mul_cancel₀ (pow_ne_zero n hbase)

theorem Interval.holds_iff (i : Interval) (digits : Nat) (exponent : Int) :
    i.holds digits exponent = true ↔ i.Contains (Decimal.value ⟨digits, exponent⟩) := by
  let unit : ℚ := (10 : ℚ) ^ (-exponent).toNat * 2 ^ (-i.scale).toNat
  have hunit : 0 < unit := by positivity
  have hpoint : ((digits * (factors exponent i.scale).1 : Nat) : ℚ) =
      Decimal.value ⟨digits, exponent⟩ * unit := by
    simp only [factors, Decimal.value, unit, Nat.pow_eq, Nat.cast_mul, Nat.cast_pow,
      Nat.cast_ofNat]
    rw [← zpow_mul_pow_toNat_neg (by norm_num : (10 : ℚ) ≠ 0) exponent]
    ring
  have hend : ∀ bound : Nat, ((bound * (factors exponent i.scale).2 : Nat) : ℚ) =
      bound * (2 : ℚ) ^ i.scale * unit := by
    intro bound
    simp only [factors, unit, Nat.pow_eq, Nat.cast_mul, Nat.cast_pow, Nat.cast_ofNat]
    rw [← zpow_mul_pow_toNat_neg (by norm_num : (2 : ℚ) ≠ 0) i.scale]
    ring
  have hlt : ∀ a b : ℚ, a * unit < b * unit ↔ a < b :=
    fun a b => mul_lt_mul_iff_left₀ hunit
  have heq : ∀ a b : ℚ, a * unit = b * unit ↔ a = b :=
    fun a b => mul_left_inj' hunit.ne'
  simp only [holds, Contains, Bool.and_eq_true, Bool.or_eq_true, decide_eq_true_eq]
  rw [← Nat.cast_lt (α := ℚ), ← Nat.cast_lt (α := ℚ), ← Nat.cast_inj (R := ℚ),
    ← Nat.cast_inj (R := ℚ), hpoint, hend, hend, hlt, hlt, heq, heq]

theorem Interval.contains_of_pick {i : Interval} {tie : Tie} {exponent : Int}
    {decimal : Decimal} (hpick : i.pick tie exponent = some decimal) :
    i.Contains decimal.value := by
  have hholds : i.holds decimal.digits decimal.exponent = true := by
    unfold pick at hpick
    dsimp only at hpick
    split at hpick
    · rename_i hbelow habove
      obtain rfl := Option.some.inj hpick
      unfold nearer
      dsimp only
      split
      · exact hbelow
      · split
        · exact habove
        · cases tie with
          | up => exact habove
          | even =>
              rcases Nat.mod_two_eq_zero_or_one
                (i.value * (factors exponent i.scale).2 / (factors exponent i.scale).1)
                with hparity | hparity <;> simp only [hparity]
              · exact hbelow
              · exact habove
    · rename_i hbelow _
      obtain rfl := Option.some.inj hpick
      exact hbelow
    · rename_i _ habove
      obtain rfl := Option.some.inj hpick
      exact habove
    · cases hpick
  exact (i.holds_iff decimal.digits decimal.exponent).mp hholds

theorem value_exact (x : Binary64) :
    (exact x).value = x.significand * (2 : ℚ) ^ x.scale := by
  unfold exact
  split
  · rename_i hscale
    obtain ⟨n, hn⟩ := Int.eq_ofNat_of_zero_le hscale
    rw [hn]
    simp [value]
  · rename_i hscale
    obtain ⟨n, hn⟩ : ∃ n : Nat, x.scale = -(n : Int) :=
      ⟨(-x.scale).toNat, by omega⟩
    have hten : (10 : ℚ) ^ n = 5 ^ n * 2 ^ n := by
      rw [← mul_pow]
      norm_num
    rw [hn]
    simp only [value, neg_neg, Int.toNat_natCast, zpow_neg, zpow_natCast,
      Nat.pow_eq, Nat.cast_mul, Nat.cast_pow, Nat.cast_ofNat, hten]
    field_simp

theorem contains_exact {x : Binary64} (hx : x.significand ≠ 0) :
    (interval x).Contains (exact x).value := by
  have hpos : (0 : ℚ) < 2 ^ (x.scale - 2) := by positivity
  have hvalue : (exact x).value =
      ((4 * x.significand : Nat) : ℚ) * 2 ^ (x.scale - 2) := by
    rw [value_exact, zpow_sub₀ (by norm_num : (2 : ℚ) ≠ 0)]
    push_cast
    ring
  have hlow : (interval x).low < 4 * x.significand := by
    simp only [interval]
    split <;> omega
  have hhigh : 4 * x.significand < (interval x).high := by
    simp [interval]
  rw [hvalue]
  refine ⟨.inl ?_, .inl ?_⟩
  · exact mul_lt_mul_of_pos_right (by exact_mod_cast hlow) hpos
  · exact mul_lt_mul_of_pos_right (by exact_mod_cast hhigh) hpos

theorem contains_shortest (tie : Tie) {x : Binary64} (hx : x.significand ≠ 0) :
    (interval x).Contains (shortest tie x).value := by
  unfold shortest
  dsimp only
  cases hfound : ((List.range 21).map fun (step : Nat) =>
      coarsest x - step).findSome? ((interval x).pick tie) with
  | none => exact contains_exact hx
  | some decimal =>
      obtain ⟨exponent, -, hpick⟩ := List.exists_of_findSome?_eq_some hfound
      exact Interval.contains_of_pick hpick

/-! ## Intervals of different numbers

Positive numbers are counted by their bits without the sign.  The ends of their
intervals are whole multiples of `2 ^ -1076`. -/

def significandAt (bits : Nat) : Nat :=
  if bits / 2 ^ 52 = 0 then bits % 2 ^ 52 else 2 ^ 52 + bits % 2 ^ 52

def lowAt (bits : Nat) : Nat :=
  (if bits % 2 ^ 52 = 0 ∧ 1 < bits / 2 ^ 52 then 4 * significandAt bits - 1
    else 4 * significandAt bits - 2) * 2 ^ (bits / 2 ^ 52 - 1)

def highAt (bits : Nat) : Nat :=
  (4 * significandAt bits + 2) * 2 ^ (bits / 2 ^ 52 - 1)

theorem lowAt_lt_highAt (bits : Nat) : lowAt bits < highAt bits := by
  refine Nat.mul_lt_mul_of_pos_right ?_ (by positivity)
  split <;> omega

theorem highAt_eq_lowAt_succ (bits : Nat) : highAt bits = lowAt (bits + 1) := by
  by_cases hlast : bits % 2 ^ 52 + 1 = 2 ^ 52
  · -- The next number has the next exponent and no fraction.
    have hexponent : (bits + 1) / 2 ^ 52 = bits / 2 ^ 52 + 1 := by omega
    have hfraction : (bits + 1) % 2 ^ 52 = 0 := by omega
    have hthis : bits % 2 ^ 52 = 2 ^ 52 - 1 := by omega
    simp only [highAt, lowAt, significandAt, hexponent, hfraction, hthis]
    cases hleading : bits / 2 ^ 52 with
    | zero => rfl
    | succ exponent =>
        simp only [Nat.add_sub_cancel, pow_succ]
        simp
        ring
  · have hexponent : (bits + 1) / 2 ^ 52 = bits / 2 ^ 52 := by omega
    have hfraction : (bits + 1) % 2 ^ 52 = bits % 2 ^ 52 + 1 := by omega
    simp only [highAt, lowAt, significandAt, hexponent, hfraction]
    congr 1
    split <;> simp <;> omega

theorem highAt_le_lowAt {bits other : Nat} (hlt : bits < other) :
    highAt bits ≤ lowAt other := by
  induction other, hlt using Nat.le_induction with
  | base => exact (highAt_eq_lowAt_succ bits).le
  | succ other _ ih =>
      rw [← highAt_eq_lowAt_succ]
      exact ih.trans (lowAt_lt_highAt other).le

/-- Only the intervals of neighbours touch. -/
theorem eq_succ_of_highAt_eq_lowAt {bits other : Nat} (hlt : bits < other)
    (hends : highAt bits = lowAt other) : other = bits + 1 := by
  by_contra hne
  have hbetween := highAt_le_lowAt (show bits + 1 < other by omega)
  have hwidth := lowAt_lt_highAt (bits + 1)
  rw [← highAt_eq_lowAt_succ] at hwidth
  omega

end Decimal

/-- The bits without the sign. -/
def Binary64.magnitude (x : Binary64) : Nat :=
  x.bits.toNat % 2 ^ 63

namespace Decimal

section Interval

variable (x : Binary64)

theorem exponent_eq : x.exponent = x.magnitude / 2 ^ 52 := by
  simp only [Binary64.exponent, Binary64.magnitude, Nat.pow_eq]
  omega

theorem fraction_eq : x.fraction = x.magnitude % 2 ^ 52 := by
  simp only [Binary64.fraction, Binary64.magnitude, Nat.pow_eq]
  omega

theorem significand_eq : x.significand = significandAt x.magnitude := by
  simp only [Binary64.significand, significandAt, exponent_eq, fraction_eq, Nat.pow_eq]

theorem scale_eq : x.scale = (x.magnitude / 2 ^ 52 - 1 : Nat) - 1074 := by
  simp only [Binary64.scale, exponent_eq]
  split <;> omega

def finest : ℚ := 2 ^ (-1076 : Int)

omit x in
theorem finest_pos : 0 < finest := by
  unfold finest
  positivity

theorem two_zpow_scale :
    (2 : ℚ) ^ (interval x).scale = 2 ^ (x.magnitude / 2 ^ 52 - 1) * finest := by
  have hscale : (interval x).scale =
      ((x.magnitude / 2 ^ 52 - 1 : Nat) : Int) + -1076 := by
    simp only [interval, scale_eq]
    omega
  rw [hscale, zpow_add₀ (by norm_num : (2 : ℚ) ≠ 0), zpow_natCast, finest]

theorem low_eq : (interval x).low * (2 : ℚ) ^ (interval x).scale =
    lowAt x.magnitude * finest := by
  rw [two_zpow_scale, lowAt, interval, fraction_eq, exponent_eq, significand_eq]
  push_cast
  ring

theorem high_eq : (interval x).high * (2 : ℚ) ^ (interval x).scale =
    highAt x.magnitude * finest := by
  rw [two_zpow_scale, highAt, interval, significand_eq]
  push_cast
  ring

variable {x} {y : Binary64} {point : ℚ}

theorem Interval.Contains.low_le (hpoint : (interval x).Contains point) :
    lowAt x.magnitude * finest ≤ point := by
  have hlow := hpoint.1
  rw [low_eq] at hlow
  rcases hlow with hlt | ⟨-, heq⟩
  · exact hlt.le
  · exact heq.le

theorem Interval.Contains.le_high (hpoint : (interval x).Contains point) :
    point ≤ highAt x.magnitude * finest := by
  have hhigh := hpoint.2
  rw [high_eq] at hhigh
  rcases hhigh with hlt | ⟨-, heq⟩
  · exact hlt.le
  · exact heq.le

theorem closed_iff : (interval x).closed = true ↔ x.magnitude % 2 = 0 := by
  simp only [interval, significand_eq, significandAt, decide_eq_true_eq]
  split <;> omega

/-- A point that rounds to two numbers cannot lie below the larger one. -/
theorem not_magnitude_lt_of_contains (hx : (interval x).Contains point)
    (hy : (interval y).Contains point) : ¬ x.magnitude < y.magnitude := by
  intro hlt
  have hmeet : lowAt y.magnitude * finest ≤ highAt x.magnitude * finest :=
    hy.low_le.trans hx.le_high
  have hends : highAt x.magnitude = lowAt y.magnitude := by
    apply le_antisymm (highAt_le_lowAt hlt)
    exact_mod_cast le_of_mul_le_mul_right hmeet finest_pos
  have hnext := eq_succ_of_highAt_eq_lowAt hlt hends
  have hpoint : point = highAt x.magnitude * finest := by
    apply le_antisymm hx.le_high
    rw [hends]
    exact hy.low_le
  -- The common end would have to belong to both intervals.
  have hclosedX : x.magnitude % 2 = 0 := by
    apply closed_iff.mp
    rcases hx.2 with hbelow | ⟨hclosed, -⟩
    · rw [high_eq] at hbelow
      exact absurd hpoint hbelow.ne
    · exact hclosed
  have hclosedY : y.magnitude % 2 = 0 := by
    apply closed_iff.mp
    rcases hy.1 with habove | ⟨hclosed, -⟩
    · rw [low_eq, ← hends] at habove
      exact absurd hpoint habove.ne'
    · exact hclosed
  omega

theorem magnitude_eq_of_contains (hx : (interval x).Contains point)
    (hy : (interval y).Contains point) : x.magnitude = y.magnitude :=
  le_antisymm (not_lt.mp (not_magnitude_lt_of_contains hy hx))
    (not_lt.mp (not_magnitude_lt_of_contains hx hy))

end Interval

end Decimal

theorem Binary64.eq_of_magnitude_eq {x y : Binary64} (hsign : x.isNegative = y.isNegative)
    (hmagnitude : x.magnitude = y.magnitude) : x = y := by
  have hbits : x.bits.toNat = y.bits.toNat := by
    have hx := x.bits.toNat_lt
    have hy := y.bits.toNat_lt
    simp only [isNegative, magnitude, Nat.pow_eq, decide_eq_decide] at hsign hmagnitude
    by_cases hnegative : 2 ^ 63 ≤ x.bits.toNat
    · have hnegative' := hsign.mp hnegative
      omega
    · have hnegative' := mt hsign.mpr hnegative
      omega
  cases x
  cases y
  exact congrArg mk (UInt64.toNat_inj.mp hbits)

theorem Binary64.isZero_iff {x : Binary64} : x.isZero = true ↔ x.magnitude = 0 := by
  simp only [isZero, Decimal.exponent_eq, Decimal.fraction_eq, Bool.and_eq_true,
    decide_eq_true_eq]
  omega

theorem Binary64.significand_ne_zero {x : Binary64} (hzero : x.isZero = false) :
    x.significand ≠ 0 := by
  have hmagnitude : x.magnitude ≠ 0 := by
    intro heq
    simp [isZero_iff.mpr heq] at hzero
  rw [Decimal.significand_eq, Decimal.significandAt]
  split <;> omega

end QueryPlan
