import QueryPlan.Binary64

/-!
# Shortest decimals

Among the decimals that round to a given number, those with the fewest digits,
and of these the nearest.  A decimal grid is the set of multiples of one power
of ten; the grids are tried from coarse to fine, and on each one only the two
neighbours of the number.
-/

namespace QueryPlan

/-- The value `digits * 10 ^ exponent`. -/
structure Decimal where
  digits : Nat
  exponent : Int
  deriving DecidableEq

namespace Decimal

/-- Which of two equally near decimals is taken. -/
inductive Tie where
  | up
  | even
  deriving DecidableEq

/-- The reals that round to a positive number, counted in quarters of the unit
`2 ^ scale` of its significand.  The ends belong to it when the significand is
even. -/
structure Interval where
  low : Nat
  value : Nat
  high : Nat
  closed : Bool
  scale : Int

/-- Below a power of two the numbers lie twice as densely. -/
def interval (x : Binary64) : Interval where
  low :=
    if x.fraction = 0 ∧ 1 < x.exponent then 4 * x.significand - 1
    else 4 * x.significand - 2
  value := 4 * x.significand
  high := 4 * x.significand + 2
  closed := x.significand % 2 = 0
  scale := x.scale - 2

/-- The factors by which multiples of `10 ^ exponent` and of `2 ^ scale` become
multiples of one common unit. -/
def factors (exponent scale : Int) : Nat × Nat :=
  (Nat.pow 10 exponent.toNat * Nat.pow 2 (-scale).toNat,
    Nat.pow 10 (-exponent).toNat * Nat.pow 2 scale.toNat)

/-- Whether `digits * 10 ^ exponent` lies in the interval. -/
def Interval.holds (i : Interval) (digits : Nat) (exponent : Int) : Bool :=
  let (ten, two) := factors exponent i.scale
  let point := digits * ten
  (i.low * two < point || (i.closed && i.low * two = point)) &&
    (point < i.high * two || (i.closed && point = i.high * two))

/-- The nearer of two neighbours `below` and `below + 1` on a grid. -/
def Interval.nearer (i : Interval) (tie : Tie) (below : Nat)
    (exponent : Int) : Nat :=
  let (ten, two) := factors exponent i.scale
  let fromBelow := i.value * two - below * ten
  let fromAbove := (below + 1) * ten - i.value * two
  if fromBelow < fromAbove then below
  else if fromAbove < fromBelow then below + 1
  else match tie with
    | .up => below + 1
    | .even => below + below % 2

/-- The best decimal on the grid of `10 ^ exponent`, if one rounds to the
number. -/
def Interval.pick (i : Interval) (tie : Tie) (exponent : Int) :
    Option Decimal :=
  let (ten, two) := factors exponent i.scale
  let below := i.value * two / ten
  match i.holds below exponent, i.holds (below + 1) exponent with
  | true, true => some ⟨i.nearer tie below exponent, exponent⟩
  | true, false => some ⟨below, exponent⟩
  | false, true => some ⟨below + 1, exponent⟩
  | false, false => none

/-- An exponent of ten above the leading digit of a number. -/
def coarsest (x : Binary64) : Int :=
  (x.scale + x.significand.log2) * 30103 / 100000 + 2

/-- The value of a finite number, digit by digit. -/
def exact (x : Binary64) : Decimal :=
  if 0 ≤ x.scale then ⟨x.significand * Nat.pow 2 x.scale.toNat, 0⟩
  else ⟨x.significand * Nat.pow 5 (-x.scale).toNat, x.scale⟩

/-- The shortest decimal of a finite number that is not zero.  The grids tried
reach past the seventeenth digit, where one always fits. -/
def shortest (tie : Tie) (x : Binary64) : Decimal :=
  let grids := (List.range 21).map fun (step : Nat) => coarsest x - step
  (grids.findSome? ((interval x).pick tie)).getD (exact x)

end Decimal

end QueryPlan
