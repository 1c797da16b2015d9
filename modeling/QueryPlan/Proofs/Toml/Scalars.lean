import Mathlib.Data.List.TakeWhile
import QueryPlan.Proofs.Decimal.Numeral
import QueryPlan.Toml.Scalar

/-!
# Reading scalars back

A natural number and a truth value are read back from their plainest spellings when the line ends
after them.
-/

namespace QueryPlan.Toml

/-! ## Words -/

namespace Scalar

/-- A word without blanks and delimiters reaches to the end of its line. -/
theorem splitWord_append {word : List Char}
    (hword : ∀ c ∈ word, isBlank c = false ∧ isDelimiter c = false) (rest : List Char) :
    splitWord (word ++ '\n' :: rest) = (word, '\n' :: rest) := by
  induction word with
  | nil => rfl
  | cons c word ih =>
      obtain ⟨⟨hblank, hdelimiter⟩, hothers⟩ := List.forall_mem_cons.mp hword
      have hin : isInWord c (word ++ '\n' :: rest) = true := by
        simp [isInWord, hblank, hdelimiter]
      rw [List.cons_append, splitWord, if_pos hin, ih hothers]

theorem read_append {word : List Char} {value : Value} (hvalue : ofWord? word = some value)
    (hword : ∀ c ∈ word, isBlank c = false ∧ isDelimiter c = false) (rest : List Char) :
    read (word ++ '\n' :: rest) = some (value, '\n' :: rest) := by
  simp only [read, splitWord_append hword, hvalue, Option.map_some]

end Scalar

/-! ## Digits -/

namespace Number

/-- What holds of the ten digits holds of every character that is a digit. -/
theorem forall_digit {p : Char → Prop} (hp : ∀ n < 10, p n.digitChar) {c : Char}
    (hc : c.isDigit) : p c := by
  have hten : ∀ m < 58, 48 ≤ m → (m - 48).digitChar = Char.ofNat m := by decide
  have hbounds : 48 ≤ c.toNat ∧ c.toNat < 58 := by
    simp only [Char.isDigit, Bool.and_eq_true, decide_eq_true_eq, ge_iff_le,
      UInt32.le_iff_toNat_le] at hc
    exact ⟨hc.1, Nat.lt_succ_of_le hc.2⟩
  have heq : (c.toNat - 48).digitChar = c := by
    rw [hten c.toNat hbounds.2 hbounds.1, Char.ofNat_toNat]
  exact heq ▸ hp (c.toNat - 48) (by omega)

section Digits

variable {digits : List Char} (hdigits : ∀ c ∈ digits, c.isDigit)

include hdigits

theorem splitBase?_of_digits : splitBase? digits = none := by
  fun_cases splitBase? digits with
  | case4 => rfl
  | _ => exact absurd (hdigits _ (List.mem_cons_of_mem _ List.mem_cons_self)) (by decide)

theorem splitSign_of_digits : splitSign digits = (none, digits) := by
  fun_cases splitSign digits with
  | case3 => rfl
  | _ => exact absurd (hdigits _ List.mem_cons_self) (by decide)

theorem partsDigits_of_digits (isDigit : Char → Bool) (afterDigit : Bool) :
    partsDigits isDigit afterDigit digits = true := by
  induction digits generalizing afterDigit with
  | nil => rfl
  | cons c digits ih =>
      obtain ⟨hc, hothers⟩ := List.forall_mem_cons.mp hdigits
      rw [partsDigits]
      · exact ih hothers _
      · rintro rfl
        exact absurd hc (by decide)

theorem isDecimalOutline_of_digits (hne : digits ≠ []) (hzero : hasLeadingZero digits = false) :
    isDecimalOutline digits = true := by
  have hforeign : digits.any isForeign = false := List.any_eq_false.mpr fun c hc => by
    exact forall_digit (p := fun c => ¬ isForeign c) (by decide) (hdigits c hc)
  have hnone : digits.dropWhile isDigit = [] := List.dropWhile_eq_nil_iff.mpr fun c hc =>
    forall_digit (p := fun c => isDigit c) (by decide) (hdigits c hc)
  simp [isDecimalOutline, splitSign_of_digits hdigits, hne, hzero, hforeign,
    partsDigits_of_digits hdigits, hnone]

theorem digits?_of_digits (hne : digits ≠ []) : digits? 10 digits = some digits := by
  have hkept : digits.filter (· ≠ '_') = digits := List.filter_eq_self.mpr fun c hc =>
    forall_digit (p := fun c => decide (c ≠ '_')) (by decide) (hdigits c hc)
  have hall : digits.all (isDigitIn 10) = true := List.all_eq_true.mpr fun c hc =>
    forall_digit (p := fun c => isDigitIn 10 c) (by decide) (hdigits c hc)
  simp only [digits?, hkept, hall]
  simp [hne]

theorem valueIn_of_digits : valueIn 10 digits = Nat.ofDigitChars 10 digits 0 := by
  rw [valueIn, Nat.ofDigitChars_eq_foldl]
  refine List.foldl_ext _ _ _ fun n c hc => ?_
  have hvalue : Json.hexValue? c = some (c.toNat - '0'.toNat) :=
    forall_digit (p := fun c => Json.hexValue? c = some (c.toNat - '0'.toNat)) (by decide)
      (hdigits c hc)
  rw [hvalue, Option.getD_some]

end Digits

/-! ## Natural numbers -/

theorem head?_toDigits_ne_zero {n : Nat} (hn : 0 < n) :
    (Nat.toDigits 10 n).head? ≠ some '0' := by
  induction n using Nat.strong_induction_on with
  | _ n ih =>
      rw [Nat.toDigits_eq_if (by omega)]
      split_ifs with hsmall
      · simp only [List.head?_cons, ne_eq, Option.some.injEq, Nat.digitChar_eq_zero]
        omega
      · rw [List.head?_append_of_ne_nil _ Nat.toDigits_ne_nil]
        exact ih (n / 10) (by omega) (by omega)

theorem hasLeadingZero_toDigits (n : Nat) : hasLeadingZero (Nat.toDigits 10 n) = false := by
  obtain rfl | hn := Nat.eq_zero_or_pos n
  · rfl
  · have hhead := head?_toDigits_ne_zero hn
    revert hhead
    fun_cases hasLeadingZero (Nat.toDigits 10 n) with
    | case1 => simp
    | case2 => exact fun _ => rfl

theorem isDigit_toDigits (n : Nat) : ∀ c ∈ Nat.toDigits 10 n, c.isDigit :=
  fun _ => Numeral.isDigit_of_mem_toDigits

theorem isIntegerOutline_toDigits (n : Nat) :
    isIntegerOutline (Nat.toDigits 10 n) = true := by
  rw [isIntegerOutline, splitBase?_of_digits (isDigit_toDigits n)]
  exact isDecimalOutline_of_digits (isDigit_toDigits n) Nat.toDigits_ne_nil
    (hasLeadingZero_toDigits n)

/-- The spelling of a natural number stands for it. -/
theorem integer?_toDigits (n : Nat) : integer? (Nat.toDigits 10 n) = some (n : Int) := by
  rw [integer?, splitBase?_of_digits (isDigit_toDigits n)]
  simp [splitSign_of_digits (isDigit_toDigits n),
    digits?_of_digits (isDigit_toDigits n) Nat.toDigits_ne_nil, signed,
    valueIn_of_digits (isDigit_toDigits n)]

end Number

/-! ## Scalars -/

namespace Scalar

theorem read_toDigits (n : Nat) (rest : List Char) :
    read (Nat.toDigits 10 n ++ '\n' :: rest)
      = some (.integer (Nat.toDigits 10 n), '\n' :: rest) := by
  refine read_append ?_ (fun c hc => ?_) rest
  · have hletter : ∀ c word, Nat.toDigits 10 n = c :: word → c.isDigit := fun c word heq =>
      Number.isDigit_toDigits n c (heq ▸ List.mem_cons_self)
    rw [ofWord?, if_neg, if_neg, if_pos (Number.isIntegerOutline_toDigits n)]
    · exact fun heq => absurd (hletter _ _ heq) (by decide)
    · exact fun heq => absurd (hletter _ _ heq) (by decide)
  · exact Number.forall_digit (p := fun c => isBlank c = false ∧ isDelimiter c = false)
      (by decide) (Number.isDigit_toDigits n c hc)

theorem read_boolean (value : Bool) (rest : List Char) :
    read ((if value then "true" else "false").toList ++ '\n' :: rest)
      = some (.boolean value, '\n' :: rest) := by
  have hword : ((if value then "true" else "false").toList.all
      fun c => !isBlank c && !isDelimiter c) = true := by cases value <;> decide
  refine read_append (by cases value <;> rfl) (fun c hc => ?_) rest
  simpa using List.all_eq_true.mp hword c hc

end Scalar

end QueryPlan.Toml
