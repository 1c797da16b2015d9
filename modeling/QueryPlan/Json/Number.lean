import QueryPlan.Binary64
import QueryPlan.Json.Reader

/-!
# Numbers in JSON documents

The digits of a numeral are gathered into a significand of 64 bits; the first
digit that does not fit and all digits after it in the same part are left out.
An integer is a numeral without point and exponent whose digits all fit.

The number of a numeral is reached by one rounded multiplication or division by
a rounded power of ten, or a few for very small numbers.  It may therefore miss
the nearest number by a little.  A number beyond the largest is refused.
-/

namespace QueryPlan.Numeral

/-- Appends digits to a significand while it fits into 64 bits, and counts the
digits left out. -/
def gather (significand : Nat) : List Char → Nat × Nat
  | [] => (significand, 0)
  | c :: rest =>
      let next := 10 * significand + digitValue c
      if next < Nat.pow 2 64 then gather next rest
      else (significand, rest.length + 1)

/-- The integer that a numeral stands for, if it is in the range of signed or
unsigned words.  A negative zero is no integer. -/
def toInt? (numeral : Numeral) : Option Int :=
  let (significand, omitted) := gather 0 numeral.whole
  if numeral.fraction ≠ [] ∨ numeral.exponent ≠ none ∨ omitted ≠ 0 then none
  else if numeral.negative then
    if significand = 0 ∨ Nat.pow 2 63 < significand then none
    else some (-(significand : Int))
  else some significand

/-- The number nearest to a power of ten. -/
def powerOfTen (exponent : Nat) : Binary64 :=
  .ofNatural false (Nat.pow 10 exponent)

/-- Scales a magnitude by a power of ten.  An exponent below the range of the
powers is taken in several steps. -/
def scaled (magnitude : Binary64) (exponent : Int) : Option Binary64 :=
  if 0 ≤ exponent ∧ exponent ≤ 308 then
    let product := Binary64.times false magnitude (powerOfTen exponent.toNat)
    if product.isInfinite then none else some product
  else if -308 ≤ exponent ∧ exponent < 0 then
    some (.dividedBy false magnitude (powerOfTen (-exponent).toNat))
  else if magnitude.isZero then some magnitude
  else if 0 ≤ exponent then none
  else scaled (.dividedBy false magnitude (powerOfTen 308)) (exponent + 308)
  termination_by (-exponent).toNat

/-- The largest exponent that is taken into account. -/
def largestExponent : Int := 2147483647

/-- The number that a numeral stands for. -/
def toBinary64? (numeral : Numeral) : Option Binary64 := do
  let (significand, omitted) := gather 0 numeral.whole
  let (significand, ignored) := gather significand numeral.fraction
  let place : Int := omitted - (numeral.fraction.length - ignored : Nat)
  let exponent := numeral.exponent.getD 0
  if largestExponent < exponent ∨ exponent < -largestExponent then
    if significand ≠ 0 ∧ 0 < exponent then none
    else return .ofSigned numeral.negative 0
  else
    let magnitude ← scaled (.ofNatural false significand) (place + exponent)
    return .ofSigned numeral.negative magnitude.bits.toNat

end QueryPlan.Numeral
