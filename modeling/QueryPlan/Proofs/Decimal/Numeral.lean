import QueryPlan.Decimal.Layout
import QueryPlan.Proofs.Decimal.Rounding
import QueryPlan.Proofs.Text.Splitting

/-!
# Numerals and their values

The characters of a numeral determine it, and laying out a decimal keeps its
value, wherever the point comes to stand.
-/

namespace QueryPlan

namespace Numeral

structure WellFormed (numeral : Numeral) : Prop where
  whole_ne_nil : numeral.whole ≠ []
  whole : ∀ c ∈ numeral.whole, c.isDigit
  fraction : ∀ c ∈ numeral.fraction, c.isDigit

/-- The value without the sign. -/
def value (numeral : Numeral) : ℚ :=
  Nat.ofDigitChars 10 (numeral.whole ++ numeral.fraction) 0 *
    (10 : ℚ) ^ (numeral.exponent.getD 0 - numeral.fraction.length)

/-! ## Characters -/

theorem toDigits_injective {m n : Nat} (heq : Nat.toDigits 10 m = Nat.toDigits 10 n) :
    m = n := by
  have hvalue := congrArg (Nat.ofDigitChars 10 · 0) heq
  simpa using hvalue

theorem isDigit_of_mem_toDigits {n : Nat} {c : Char} (hc : c ∈ Nat.toDigits 10 n) :
    c.isDigit :=
  Nat.isDigit_of_mem_toDigits (by decide) (by decide) hc

/-- An optional sign in front of digits can be told from them. -/
theorem sign_unique (negative negative' : Bool) {front front' : List Char}
    (hfront : ∀ c ∈ front.head?, c ≠ '-') (hother : ∀ c ∈ front'.head?, c ≠ '-')
    (heq : (if negative then ['-'] else []) ++ front =
      (if negative' then ['-'] else []) ++ front') :
    negative = negative' ∧ front = front' := by
  cases negative <;> cases negative' <;>
    simp only [if_true, if_false, Bool.false_eq_true, List.nil_append,
      List.cons_append, List.cons.injEq, true_and] at heq
  · exact ⟨rfl, heq⟩
  · exact absurd rfl (hfront '-' (by simp [heq]))
  · exact absurd rfl (hother '-' (by simp [← heq]))
  · exact ⟨rfl, heq⟩

theorem exponentChars_injective {exponent exponent' : Int}
    (heq : exponentChars false exponent = exponentChars false exponent') :
    exponent = exponent' := by
  have hdigits : ∀ n : Nat, ∀ c ∈ (Nat.toDigits 10 n).head?, c ≠ '-' := by
    rintro n c hc rfl
    have hdigit := isDigit_of_mem_toDigits (List.mem_of_mem_head? hc)
    simp at hdigit
  simp only [exponentChars, Bool.false_eq_true, if_false, List.cons_append,
    List.cons.injEq, true_and] at heq
  obtain ⟨hsign, hdigits⟩ := sign_unique (decide (exponent < 0))
    (decide (exponent' < 0)) (hdigits _) (hdigits _) (by simpa using heq)
  have habs := toDigits_injective hdigits
  simp only [decide_eq_decide] at hsign
  omega

def tail (numeral : Numeral) : List Char :=
  (if numeral.fraction.isEmpty then [] else '.' :: numeral.fraction)
    ++ (numeral.exponent.map (exponentChars false)).getD []

theorem chars_eq (numeral : Numeral) :
    numeral.chars false =
      (if numeral.negative then ['-'] else []) ++ (numeral.whole ++ numeral.tail) := by
  unfold chars tail
  cases numeral.exponent <;> simp

theorem exponent_not_digit (exponent : Option Int) :
    ∀ c ∈ ((exponent.map (exponentChars false)).getD []).head?, ¬ c.isDigit := by
  cases exponent <;> simp [exponentChars]

theorem tail_not_digit (numeral : Numeral) :
    ∀ c ∈ numeral.tail.head?, ¬ c.isDigit := by
  unfold tail
  split
  · exact exponent_not_digit numeral.exponent
  · simp

theorem exponent_unique {exponent exponent' : Option Int}
    (heq : (exponent.map (exponentChars false)).getD [] =
      (exponent'.map (exponentChars false)).getD []) : exponent = exponent' := by
  cases exponent <;> cases exponent'
  · rfl
  · simp [exponentChars] at heq
  · simp [exponentChars] at heq
  · exact congrArg some (exponentChars_injective heq)

theorem tail_unique {a b : Numeral} (ha : a.WellFormed) (hb : b.WellFormed)
    (heq : a.tail = b.tail) : a.fraction = b.fraction ∧ a.exponent = b.exponent := by
  have hfirst : ∀ exponent : Option Int,
      ∀ c ∈ ((exponent.map (exponentChars false)).getD []).head?, c ≠ '.' := by
    intro exponent
    cases exponent <;> simp [exponentChars]
  unfold tail at heq
  cases hfractionA : a.fraction with
  | nil =>
      cases hfractionB : b.fraction with
      | nil =>
          simp only [hfractionA, hfractionB, List.isEmpty_nil, if_true,
            List.nil_append] at heq
          exact ⟨rfl, exponent_unique heq⟩
      | cons digit rest =>
          simp only [hfractionA, hfractionB, List.isEmpty_nil, List.isEmpty_cons,
            if_true, Bool.false_eq_true, if_false, List.nil_append] at heq
          exact absurd rfl (hfirst a.exponent '.' (by rw [heq]; rfl))
  | cons digit rest =>
      cases hfractionB : b.fraction with
      | nil =>
          simp only [hfractionA, hfractionB, List.isEmpty_nil, List.isEmpty_cons,
            if_true, Bool.false_eq_true, if_false, List.nil_append] at heq
          exact absurd rfl (hfirst b.exponent '.' (by rw [← heq]; rfl))
      | cons digit' rest' =>
          simp only [hfractionA, hfractionB, List.isEmpty_cons, Bool.false_eq_true,
            if_false, List.cons_append, List.cons.injEq, true_and] at heq
          have hdigitsA := ha.fraction
          have hdigitsB := hb.fraction
          rw [hfractionA] at hdigitsA
          rw [hfractionB] at hdigitsB
          obtain ⟨hfraction, hexponent⟩ := Text.split_unique
            (p := fun c => c.isDigit) hdigitsA hdigitsB
            (exponent_not_digit a.exponent) (exponent_not_digit b.exponent)
            (by simpa using heq)
          exact ⟨hfraction, exponent_unique hexponent⟩

theorem chars_injective {a b : Numeral} (ha : a.WellFormed) (hb : b.WellFormed)
    (heq : a.chars false = b.chars false) : a = b := by
  have hhead : ∀ {numeral : Numeral}, numeral.WellFormed →
      ∀ c ∈ (numeral.whole ++ numeral.tail).head?, c ≠ '-' := by
    rintro numeral hnumeral c hc rfl
    have hdigit : '-'.isDigit := by
      refine hnumeral.whole '-' (List.mem_of_mem_head? ?_)
      rwa [List.head?_append_of_ne_nil _ hnumeral.whole_ne_nil] at hc
    simp at hdigit
  rw [chars_eq, chars_eq] at heq
  obtain ⟨hnegative, hdigits⟩ :=
    sign_unique a.negative b.negative (hhead ha) (hhead hb) heq
  obtain ⟨hwhole, htail⟩ := Text.split_unique (p := fun c => c.isDigit)
    ha.whole hb.whole a.tail_not_digit b.tail_not_digit hdigits
  obtain ⟨hfraction, hexponent⟩ := tail_unique ha hb htail
  cases a
  cases b
  simp_all

end Numeral

/-! ## Laid out decimals -/

namespace Layout

section Digits

variable {digits : List Char} (hne : digits ≠ [])
  (hdigits : ∀ c ∈ digits, c.isDigit) (negative : Bool) (place : Int)
include hne hdigits

theorem wellFormed_positional : (positional negative digits place).WellFormed := by
  have hzeros : ∀ n : Nat, ∀ c ∈ List.replicate n '0', c.isDigit := by
    intro n c hc
    rw [List.eq_of_mem_replicate hc]
    rfl
  unfold positional
  split
  · refine ⟨by simp, by simp, ?_⟩
    intro c hc
    rcases List.mem_append.mp hc with hc | hc
    · exact hzeros _ c hc
    · exact hdigits c hc
  · split
    · refine ⟨by simp [hne], ?_, by simp⟩
      intro c hc
      rcases List.mem_append.mp hc with hc | hc
      · exact hdigits c hc
      · exact hzeros _ c hc
    · rename_i hplace _
      refine ⟨?_, ?_, ?_⟩
      · simp only [ne_eq, List.take_eq_nil_iff, hne, or_false]
        omega
      · exact fun c hc => hdigits c (List.mem_of_mem_take hc)
      · exact fun c hc => hdigits c (List.mem_of_mem_drop hc)

theorem wellFormed_scientific : (scientific negative digits place).WellFormed := by
  refine ⟨by simp [scientific, hne], ?_, ?_⟩
  · exact fun c hc => hdigits c (List.mem_of_mem_take hc)
  · exact fun c hc => hdigits c (List.mem_of_mem_drop hc)

end Digits

section Values

variable (negative : Bool) (digits : List Char) (place : Int)

/-- Wherever the point stands, the value is that of the digits. -/
theorem value_positional : (positional negative digits place).value =
    Nat.ofDigitChars 10 digits 0 * (10 : ℚ) ^ (place - digits.length) := by
  have hten : (10 : ℚ) ≠ 0 := by norm_num
  unfold positional
  split
  · rename_i hplace
    have hlength : ((List.replicate (-place).toNat '0' ++ digits).length : Int) =
        digits.length - place := by
      simp only [List.length_append, List.length_replicate, Nat.cast_add]
      omega
    simp only [Numeral.value, Option.getD_none, hlength, List.cons_append,
      List.nil_append, Nat.ofDigitChars_cons, Nat.ofDigitChars_append,
      Nat.ofDigitChars_replicate_zero]
    simp
  · split
    · rename_i hplace hlength
      obtain ⟨zeros, hzeros⟩ := Nat.exists_eq_add_of_le hlength
      have hwhole : Nat.ofDigitChars 10
          (digits ++ List.replicate (place.toNat - digits.length) '0' ++ ['0']) 0 =
            Nat.ofDigitChars 10 digits 0 * 10 ^ zeros * 10 := by
        simp only [hzeros, Nat.add_sub_cancel_left, Nat.ofDigitChars_append,
          Nat.ofDigitChars_replicate_zero, Nat.ofDigitChars_cons, Nat.ofDigitChars_nil]
        simp
        ring
      have hexponent : place - digits.length = (zeros : Int) := by omega
      rw [Numeral.value]
      simp only [hwhole, hexponent, zpow_natCast]
      push_cast
      simp
    · rename_i hplace hlength
      have hfraction : ((digits.drop place.toNat).length : Int) =
          digits.length - place := by
        simp only [List.length_drop]
        omega
      simp only [Numeral.value, Option.getD_none, hfraction, List.take_append_drop]
      simp

theorem value_scientific (hne : digits ≠ []) : (scientific negative digits place).value =
    Nat.ofDigitChars 10 digits 0 * (10 : ℚ) ^ (place - digits.length) := by
  have hpos := List.length_pos_iff.mpr hne
  have hexponent : place - 1 - ((digits.drop 1).length : Int) =
      place - digits.length := by
    simp only [List.length_drop]
    omega
  simp only [Numeral.value, scientific, Option.getD_some, hexponent,
    List.take_append_drop]

end Values

section Decimal

variable (layout : Layout) (negative : Bool) (decimal : Decimal)

theorem wellFormed_decimal : (layout.decimal negative decimal).WellFormed := by
  have hdigits : ∀ c ∈ Nat.toDigits 10 decimal.digits, c.isDigit :=
    fun c hc => Numeral.isDigit_of_mem_toDigits hc
  unfold Layout.decimal
  dsimp only
  split
  · exact wellFormed_positional Nat.toDigits_ne_nil hdigits negative _
  · exact wellFormed_scientific Nat.toDigits_ne_nil hdigits negative _

theorem negative_decimal : (layout.decimal negative decimal).negative = negative := by
  unfold Layout.decimal positional
  dsimp only
  split
  · split
    · rfl
    · split <;> rfl
  · rfl

theorem value_decimal : (layout.decimal negative decimal).value = decimal.value := by
  have hplace : ∀ length : Nat,
      decimal.exponent + length - length = decimal.exponent := by omega
  unfold Layout.decimal
  dsimp only
  split
  · rw [value_positional, hplace,
      Nat.ofDigitChars_ten_toDigits, Decimal.value]
  · rw [value_scientific _ _ _ Nat.toDigits_ne_nil, hplace,
      Nat.ofDigitChars_ten_toDigits, Decimal.value]

theorem fraction_ne_nil_or_exponent :
    (layout.decimal negative decimal).fraction ≠ [] ∨
      (layout.decimal negative decimal).exponent.isSome := by
  have hne : Nat.toDigits 10 decimal.digits ≠ [] := Nat.toDigits_ne_nil
  unfold Layout.decimal positional
  dsimp only
  split
  · refine .inl ?_
    split
    · simp [hne]
    · split
      · simp
      · simp only [ne_eq, List.drop_eq_nil_iff]
        omega
  · exact .inr rfl

end Decimal

/-! ## Finite numbers -/

section Finite

variable (layout : Layout) (x : Binary64)

theorem wellFormed_finite : (layout.finite x).WellFormed := by
  unfold finite
  split
  · exact ⟨by simp, by simp, by simp⟩
  · exact wellFormed_decimal _ _ _

theorem negative_finite : (layout.finite x).negative = x.isNegative := by
  unfold finite
  split
  · rfl
  · exact negative_decimal _ _ _

theorem finite_point_or_exponent :
    (layout.finite x).fraction ≠ [] ∨ (layout.finite x).exponent.isSome := by
  unfold finite
  split
  · exact .inl (by simp)
  · exact fraction_ne_nil_or_exponent _ _ _

variable {layout x}

theorem value_finite_of_zero (hzero : x.isZero = true) : (layout.finite x).value = 0 := by
  simp [finite, hzero, Numeral.value, Nat.ofDigitChars_cons]

theorem contains_value_finite (hzero : x.isZero = false) :
    (Decimal.interval x).Contains (layout.finite x).value := by
  simp only [finite, hzero, Bool.false_eq_true, if_false, value_decimal]
  exact Decimal.contains_shortest layout.tie (Binary64.significand_ne_zero hzero)

theorem value_finite_pos (hzero : x.isZero = false) : 0 < (layout.finite x).value := by
  have hlow : 0 < Decimal.lowAt x.magnitude := by
    have hne := Binary64.significand_ne_zero hzero
    rw [Decimal.significand_eq] at hne
    unfold Decimal.lowAt
    refine Nat.mul_pos ?_ (by positivity)
    split <;> omega
  refine lt_of_lt_of_le ?_ (contains_value_finite hzero).low_le
  exact mul_pos (by exact_mod_cast hlow) Decimal.finest_pos

theorem finite_injective {y : Binary64} (heq : layout.finite x = layout.finite y) :
    x = y := by
  have hnegative : x.isNegative = y.isNegative := by
    rw [← negative_finite layout x, heq, negative_finite]
  apply Binary64.eq_of_magnitude_eq hnegative
  have hvalue := congrArg Numeral.value heq
  cases hx : x.isZero <;> cases hy : y.isZero
  · have hcontains : (Decimal.interval x).Contains (layout.finite x).value :=
      contains_value_finite hx
    rw [hvalue] at hcontains
    exact Decimal.magnitude_eq_of_contains hcontains (contains_value_finite hy)
  · rw [value_finite_of_zero hy] at hvalue
    exact absurd hvalue (value_finite_pos hx).ne'
  · rw [value_finite_of_zero hx] at hvalue
    exact absurd hvalue (value_finite_pos hy).ne
  · rw [Binary64.isZero_iff.mp hx, Binary64.isZero_iff.mp hy]

end Finite

end Layout

end QueryPlan
