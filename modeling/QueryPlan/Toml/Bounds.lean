import QueryPlan.Binary64
import QueryPlan.Toml.Basic
import QueryPlan.Toml.Number

/-!
# Bounds of numbers in TOML

A document may hold numbers of any size, and integers whose spelling stands for
none.  Whoever looks at one, be it only to pass over it, needs it to be a number
and to fit: integers into 128 bits, with or without a sign, and numbers with a
point or an exponent below the range of infinity.
-/

namespace QueryPlan.Toml

/-- Integers that fit into 128 bits, with or without a sign. -/
def isWideInteger (value : Int) : Bool :=
  -(Int.pow 2 127) ≤ value && value < Int.pow 2 128

/-- Whether a word stands for an integer that fits. -/
def isBoundedInteger (word : List Char) : Bool :=
  (Number.integer? word).any isWideInteger

/-- Whether `digits * 10 ^ exponent` rounds beyond the largest number. -/
def isTooLarge (digits : List Char) (exponent : Int) : Bool :=
  let digits := digits.dropWhile (· = '0')
  let place := digits.length + exponent
  if digits.isEmpty ∨ place < 309 then false
  else if 309 < place then true
  else
    let value := Number.valueIn 10 digits
    (Binary64.ofRatio false (value * Nat.pow 10 exponent.toNat)
      (Nat.pow 10 (-exponent).toNat)).isInfinite

/-- Infinities and NaNs that are written as words are in bounds. -/
def isBoundedFloat (word : List Char) : Bool :=
  match Number.floatParts? word with
  | some (digits, exponent) => !isTooLarge digits exponent
  | none => true

mutual

/-- Whether all numbers in a value fit. -/
def Value.isBounded (value : Value) : Bool :=
  match value with
  | .integer word => isBoundedInteger word
  | .float word => isBoundedFloat word
  | .array items => areBounded items
  | .series tables => areBoundedTables tables
  | .table _ entries => areBoundedEntries entries
  | .string _ | .boolean _ | .moment _ => true

def areBounded : List Value → Bool
  | [] => true
  | item :: rest => item.isBounded && areBounded rest

def areBoundedEntries : List (String × Value) → Bool
  | [] => true
  | (_, value) :: rest => value.isBounded && areBoundedEntries rest

def areBoundedTables : List (List (String × Value)) → Bool
  | [] => true
  | entries :: rest => areBoundedEntries entries && areBoundedTables rest

end

end QueryPlan.Toml
