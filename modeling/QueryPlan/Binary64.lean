/-!
# Double precision numbers as bit patterns

A number is kept as its 64 bits, so that signed zeros and the payloads of NaNs
stay apart where a text shows them.  `same` is the coarser equality by which
plans are compared: equal as numbers, or both NaN.  `ofRatio` rounds a quotient
of naturals to the nearest number, halves going to the even neighbour.
-/

namespace QueryPlan

structure Binary64 where
  bits : UInt64
  deriving DecidableEq

namespace Binary64

/-- The 52 low bits. -/
def fraction (x : Binary64) : Nat :=
  x.bits.toNat % Nat.pow 2 52

/-- The 11 bits of the biased exponent. -/
def exponent (x : Binary64) : Nat :=
  x.bits.toNat / Nat.pow 2 52 % Nat.pow 2 11

/-- Whether the sign bit is set, also of a zero or a NaN. -/
def isNegative (x : Binary64) : Bool :=
  Nat.pow 2 63 ≤ x.bits.toNat

def isNaN (x : Binary64) : Bool :=
  x.exponent = 2047 && x.fraction != 0

def isInfinite (x : Binary64) : Bool :=
  x.exponent = 2047 && x.fraction = 0

def isZero (x : Binary64) : Bool :=
  x.exponent = 0 && x.fraction = 0

/-- A finite number has the magnitude `significand * 2 ^ scale`. -/
def significand (x : Binary64) : Nat :=
  if x.exponent = 0 then x.fraction else Nat.pow 2 52 + x.fraction

def scale (x : Binary64) : Int :=
  if x.exponent = 0 then -1074 else x.exponent - 1075

/-- Equality as numbers, by which all NaNs are one value and both zeros are
one value. -/
def same (x y : Binary64) : Bool :=
  x = y || (x.isNaN && y.isNaN) || (x.isZero && y.isZero)

def positiveZero : Binary64 := ⟨0⟩

def quietNaN : Binary64 := ⟨0x7ff8000000000000⟩

/-- One chosen pattern of each class of `same`. -/
def canonical (x : Binary64) : Binary64 :=
  if x.isNaN then quietNaN
  else if x.isZero then positiveZero
  else x

/-- The number with the given sign whose other bits are `magnitude`. -/
def ofSigned (negative : Bool) (magnitude : Nat) : Binary64 :=
  ⟨UInt64.ofNat (if negative then Nat.pow 2 63 + magnitude else magnitude)⟩

def infinity (negative : Bool) : Binary64 :=
  ofSigned negative (2047 * Nat.pow 2 52)

/-- `num / den` to the nearest natural, halves going to the even neighbour. -/
def roundQuotient (num den : Nat) : Nat :=
  let quotient := num / den
  let twice := 2 * (num % den)
  if twice < den then quotient
  else if den < twice then quotient + 1
  else quotient + quotient % 2

/-- The base-two exponent of the leading bit of `num / den`. -/
def leadingExponent (num den : Nat) : Int :=
  let guess : Int := (num.log2 : Int) - den.log2
  if den * Nat.pow 2 guess.toNat ≤ num * Nat.pow 2 (-guess).toNat then guess
  else guess - 1

/-- The number nearest to `num / den`; beyond the largest it is infinite. -/
def ofRatio (negative : Bool) (num den : Nat) : Binary64 :=
  if num = 0 then ofSigned negative 0
  else
    let scale := max (leadingExponent num den - 52) (-1074)
    let significand :=
      roundQuotient (num * Nat.pow 2 (-scale).toNat) (den * Nat.pow 2 scale.toNat)
    let magnitude := (scale + 1074).toNat * Nat.pow 2 52 + significand
    if 2047 * Nat.pow 2 52 ≤ magnitude then infinity negative
    else ofSigned negative magnitude

/-- The number nearest to a natural. -/
def ofNatural (negative : Bool) (n : Nat) : Binary64 :=
  ofRatio negative n 1

/-- The product of the magnitudes of two finite numbers, rounded. -/
def times (negative : Bool) (x y : Binary64) : Binary64 :=
  let scale := x.scale + y.scale
  ofRatio negative (x.significand * y.significand * Nat.pow 2 scale.toNat)
    (Nat.pow 2 (-scale).toNat)

/-- The quotient of the magnitudes of two finite numbers, rounded. -/
def dividedBy (negative : Bool) (x y : Binary64) : Binary64 :=
  let scale := x.scale - y.scale
  ofRatio negative (x.significand * Nat.pow 2 scale.toNat)
    (y.significand * Nat.pow 2 (-scale).toNat)

end Binary64

end QueryPlan
