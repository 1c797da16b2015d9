/-!
# Numerals

A decimal number as it is written: digits with or without a point among them,
and with or without an exponent.
-/

namespace QueryPlan

/-- The point is written only if digits follow it. -/
structure Numeral where
  negative : Bool
  whole : List Char
  fraction : List Char
  exponent : Option Int
  deriving DecidableEq

namespace Numeral

/-- The digits of an integer. -/
def ofInt (value : Int) : Numeral :=
  ⟨value < 0, Nat.toDigits 10 value.natAbs, [], none⟩

/-- The characters of an exponent.  With `plus`, one that is not negative gets
a sign too. -/
def exponentChars (plus : Bool) (exponent : Int) : List Char :=
  let sign := if exponent < 0 then ['-'] else if plus then ['+'] else []
  'e' :: sign ++ Nat.toDigits 10 exponent.natAbs

def chars (plus : Bool) (numeral : Numeral) : List Char :=
  (if numeral.negative then ['-'] else [])
    ++ numeral.whole
    ++ (if numeral.fraction.isEmpty then [] else '.' :: numeral.fraction)
    ++ match numeral.exponent with
      | some exponent => exponentChars plus exponent
      | none => []

end Numeral

/-- The number that a digit stands for. -/
def digitValue (c : Char) : Nat :=
  c.toNat - '0'.toNat

/-- Whether a character is one of the ten digits. -/
def isDigit (c : Char) : Bool :=
  '0' ≤ c && c ≤ '9'

end QueryPlan
