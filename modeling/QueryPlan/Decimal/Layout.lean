import QueryPlan.Decimal.Numeral
import QueryPlan.Decimal.Shortest

/-!
# Layout of decimals

How the shortest digits of a number are written: with a point among or beside
the digits when the point falls near them, and in exponent form otherwise.
What differs between two formats is one `Layout` value.
-/

namespace QueryPlan

/-- The point stands after `place` digits; a `place` from `lowest` to `highest`
is written out, any other as an exponent. -/
structure Layout where
  lowest : Int
  highest : Int
  tie : Decimal.Tie

namespace Layout

/-- Digits with a point after `place` of them, and at least one on each side. -/
def positional (negative : Bool) (digits : List Char) (place : Int) : Numeral :=
  if place ≤ 0 then
    ⟨negative, ['0'], List.replicate (-place).toNat '0' ++ digits, none⟩
  else if digits.length ≤ place.toNat then
    ⟨negative, digits ++ List.replicate (place.toNat - digits.length) '0', ['0'], none⟩
  else ⟨negative, digits.take place.toNat, digits.drop place.toNat, none⟩

/-- Digits with a point after the first, if more follow, and an exponent. -/
def scientific (negative : Bool) (digits : List Char) (place : Int) : Numeral :=
  ⟨negative, digits.take 1, digits.drop 1, some (place - 1)⟩

def decimal (layout : Layout) (negative : Bool) (value : Decimal) : Numeral :=
  let digits := Nat.toDigits 10 value.digits
  let place := value.exponent + digits.length
  if layout.lowest ≤ place ∧ place ≤ layout.highest then
    positional negative digits place
  else scientific negative digits place

/-- The numeral of a finite number. -/
def finite (layout : Layout) (x : Binary64) : Numeral :=
  if x.isZero then ⟨x.isNegative, ['0'], ['0'], none⟩
  else layout.decimal x.isNegative (Decimal.shortest layout.tie x)

/-- Numbers in printed plans: written out from `1e-4` up to `1e16`. -/
def printed : Layout := ⟨-3, 16, .up⟩

/-- Numbers in JSON documents: written out from `1e-5` up to `1e16`. -/
def stored : Layout := ⟨-4, 16, .even⟩

end Layout

/-- The text of a number in a printed plan.  All NaNs look alike. -/
def Binary64.text (x : Binary64) : String :=
  if x.isNaN then "NaN"
  else if x.isInfinite then if x.isNegative then "-inf" else "inf"
  else String.ofList ((Layout.printed.finite x).chars false)

end QueryPlan
