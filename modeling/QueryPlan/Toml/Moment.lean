import QueryPlan.Toml.Number

/-!
# Dates and times in TOML

A date, a time of day or both, with or without a zone.  Dates are those of the
calendar, and a minute may have a leap second.
-/

namespace QueryPlan.Toml.Moment

/-- A number of exactly `width` digits from `low` to `high`. -/
def bounded? (width low high : Nat) (word : List Char) : Option Nat :=
  let value := Number.valueIn 10 word
  if word.length = width ∧ word.all isDigit ∧ low ≤ value ∧ value ≤ high then
    some value
  else none

def daysIn (year month : Nat) : Nat :=
  if month = 2 then
    if year % 4 = 0 ∧ (year % 100 ≠ 0 ∨ year % 400 = 0) then 29 else 28
  else if month = 4 ∨ month = 6 ∨ month = 9 ∨ month = 11 then 30
  else 31

def isDate (word : List Char) : Bool :=
  match word with
  | [y, y', y'', y''', '-', m, m', '-', d, d'] =>
      match bounded? 4 0 9999 [y, y', y'', y'''], bounded? 2 1 12 [m, m'] with
      | some year, some month => (bounded? 2 1 (daysIn year month) [d, d']).isSome
      | _, _ => false
  | _ => false

/-- A time of day; the seconds and their fraction may be left out. -/
def isTime (word : List Char) : Bool :=
  match word with
  | h :: h' :: ':' :: m :: m' :: rest =>
      (bounded? 2 0 23 [h, h']).isSome && (bounded? 2 0 59 [m, m']).isSome &&
        match rest with
        | [] => true
        | ':' :: s :: s' :: rest =>
            (bounded? 2 0 60 [s, s']).isSome &&
              match rest with
              | [] => true
              | '.' :: digits => !digits.isEmpty && digits.all isDigit
              | _ => false
        | _ => false
  | _ => false

def isZone (word : List Char) : Bool :=
  match word with
  | ['Z'] | ['z'] => true
  | [sign, h, h', ':', m, m'] =>
      (sign = '+' || sign = '-') && (bounded? 2 0 23 [h, h']).isSome &&
        (bounded? 2 0 59 [m, m']).isSome
  | _ => false

/-- A time of day with or without a zone. -/
def isZonedTime (word : List Char) : Bool :=
  let isMark := fun c => c = 'Z' || c = 'z' || c = '+' || c = '-'
  isTime (word.takeWhile (!isMark ·)) &&
    match word.dropWhile (!isMark ·) with
    | [] => true
    | zone => isZone zone

/-- A date, a time of day, or both. -/
def isMoment (word : List Char) : Bool :=
  isDate word || isTime word ||
    (isDate (word.take 10) &&
      match word.drop 10 with
      | separator :: time =>
          (separator = 'T' || separator = 't' || separator = ' ') && isZonedTime time
      | [] => false)

end QueryPlan.Toml.Moment
