import QueryPlan.Proofs.Literal

/-!
# The numbers that bits stand for

A bit pattern stands for a rational number, for an infinity or for no number.
The equality by which plans are compared is equality of what is stood for: all
NaNs are one, both zeros are the number zero, and any other number has a single
pattern.
-/

namespace QueryPlan.Binary64

inductive Number where
  | nan
  | infinite (negative : Bool)
  | finite (value : ℚ)

/-- The rational that a finite pattern stands for. -/
def toRat (x : Binary64) : ℚ :=
  (if x.isNegative then -1 else 1) * (x.significand * (2 : ℚ) ^ x.scale)

def number (x : Binary64) : Number :=
  if x.isNaN then .nan
  else if x.isInfinite then .infinite x.isNegative
  else .finite x.toRat

variable {x y : Binary64}

theorem isNaN_of_isZero (hzero : x.isZero = true) : x.isNaN = false := by
  simp only [isZero, Bool.and_eq_true, decide_eq_true_eq] at hzero
  simp [isNaN, hzero.1]

theorem isInfinite_of_isZero (hzero : x.isZero = true) : x.isInfinite = false := by
  simp only [isZero, Bool.and_eq_true, decide_eq_true_eq] at hzero
  simp [isInfinite, hzero.1]

theorem abs_toRat (x : Binary64) :
    |x.toRat| = x.significand * (2 : ℚ) ^ x.scale := by
  have hsize : (0 : ℚ) ≤ x.significand * (2 : ℚ) ^ x.scale := by positivity
  unfold toRat
  split
  · rw [neg_one_mul, abs_neg, abs_of_nonneg hsize]
  · rw [one_mul, abs_of_nonneg hsize]

theorem toRat_eq_zero_iff : x.toRat = 0 ↔ x.isZero = true := by
  have hscale : (2 : ℚ) ^ x.scale ≠ 0 := by positivity
  rw [← abs_eq_zero, abs_toRat, mul_eq_zero_iff_right hscale, Nat.cast_eq_zero]
  constructor
  · intro hsignificand
    by_contra hzero
    exact significand_ne_zero (Bool.not_eq_true _ ▸ hzero) hsignificand
  · intro hzero
    simp only [isZero, Bool.and_eq_true, decide_eq_true_eq] at hzero
    simp [significand, hzero.1, hzero.2]

theorem toRat_neg_iff (hzero : x.isZero = false) :
    x.toRat < 0 ↔ x.isNegative = true := by
  have hsignificand := Nat.pos_of_ne_zero (significand_ne_zero hzero)
  have hsize : (0 : ℚ) < x.significand * (2 : ℚ) ^ x.scale := by positivity
  cases hsign : x.isNegative with
  | true => simpa [toRat, hsign] using hsize
  | false => simpa [toRat, hsign] using hsize.le

/-- A rational other than zero has one pattern. -/
theorem eq_of_toRat_eq (hzero : x.isZero = false) (hvalue : x.toRat = y.toRat) :
    x = y := by
  have hzero' : y.isZero = false := by
    rwa [← Bool.not_eq_true, ← toRat_eq_zero_iff, ← hvalue, toRat_eq_zero_iff,
      Bool.not_eq_true]
  have hsign : x.isNegative = y.isNegative := by
    rw [Bool.eq_iff_iff, ← toRat_neg_iff hzero, ← toRat_neg_iff hzero', hvalue]
  have hexact : (Decimal.exact x).value = (Decimal.exact y).value := by
    rw [Decimal.value_exact, Decimal.value_exact, ← abs_toRat, ← abs_toRat, hvalue]
  have hcontains := Decimal.contains_exact (significand_ne_zero hzero)
  rw [hexact] at hcontains
  apply eq_of_magnitude_eq hsign
  exact Decimal.magnitude_eq_of_contains hcontains
    (Decimal.contains_exact (significand_ne_zero hzero'))

theorem number_eq_nan_iff : x.number = .nan ↔ x.isNaN = true := by
  unfold number
  split_ifs <;> simp_all

theorem number_eq_infinite_iff {negative : Bool} :
    x.number = .infinite negative ↔
      x.isNaN = false ∧ x.isInfinite = true ∧ x.isNegative = negative := by
  unfold number
  split_ifs <;> simp_all

theorem number_eq_finite_iff {value : ℚ} :
    x.number = .finite value ↔
      x.isNaN = false ∧ x.isInfinite = false ∧ x.toRat = value := by
  unfold number
  split_ifs <;> simp_all

theorem same_of_number_eq (hnumber : x.number = y.number) : x.same y = true := by
  cases hy : y.number with
  | nan =>
      have hx := number_eq_nan_iff.mp (hnumber.trans hy)
      simp [same, hx, number_eq_nan_iff.mp hy]
  | infinite negative =>
      obtain ⟨-, hinfinite, hsign⟩ := number_eq_infinite_iff.mp (hnumber.trans hy)
      obtain ⟨-, hinfinite', hsign'⟩ := number_eq_infinite_iff.mp hy
      have hmagnitude : x.magnitude = y.magnitude := by
        rw [magnitude_of_infinite hinfinite, magnitude_of_infinite hinfinite']
      simp [same, eq_of_magnitude_eq (hsign.trans hsign'.symm) hmagnitude]
  | finite value =>
      obtain ⟨-, -, hvalue⟩ := number_eq_finite_iff.mp (hnumber.trans hy)
      obtain ⟨-, -, hvalue'⟩ := number_eq_finite_iff.mp hy
      by_cases hzero : x.isZero = true
      · have hzero' : y.isZero = true := by
          rw [← toRat_eq_zero_iff, hvalue', ← hvalue, toRat_eq_zero_iff, hzero]
        simp [same, hzero, hzero']
      · rw [Bool.not_eq_true] at hzero
        simp [same, eq_of_toRat_eq hzero (hvalue.trans hvalue'.symm)]

/-- Numbers are the same exactly when their patterns stand for the same. -/
theorem same_iff_number_eq (x y : Binary64) :
    x.same y = true ↔ x.number = y.number := by
  refine ⟨?_, same_of_number_eq⟩
  intro hsame
  simp only [same, Bool.or_eq_true, Bool.and_eq_true, decide_eq_true_eq] at hsame
  rcases hsame with (rfl | ⟨hx, hy⟩) | ⟨hx, hy⟩
  · rfl
  · rw [number_eq_nan_iff.mpr hx, number_eq_nan_iff.mpr hy]
  · have hzero : ∀ z : Binary64, z.isZero = true → z.number = .finite 0 :=
      fun z hz => number_eq_finite_iff.mpr
        ⟨isNaN_of_isZero hz, isInfinite_of_isZero hz, toRat_eq_zero_iff.mpr hz⟩
    rw [hzero x hx, hzero y hy]

end QueryPlan.Binary64
