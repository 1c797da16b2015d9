import QueryPlan.Decimal.Numeral
import QueryPlan.Json.Basic

/-!
# Numbers in TOML

Underscores may part the digits of a number.  A number with a point or an
exponent is checked as a whole when it is read.  Of an integer in base ten only
the outline is checked then: how it begins, and that its underscores stand
between digits of any base.  What `integer?` makes of its spelling matters only
to those who look at the number.
-/

namespace QueryPlan.Toml.Number

/-! ## Digits -/

def isDigitIn (base : Nat) (c : Char) : Bool :=
  (Json.hexValue? c).any (· < base)

def valueIn (base : Nat) (digits : List Char) : Nat :=
  digits.foldl (fun n c => base * n + (Json.hexValue? c).getD 0) 0

/-- Splits a sign off. -/
def splitSign : List Char → Option Bool × List Char
  | '-' :: rest => (some true, rest)
  | '+' :: rest => (some false, rest)
  | word => (none, word)

/-- Changes the sign of a value that has a minus before it. -/
def signed (sign : Option Bool) (value : Nat) : Int :=
  if sign = some true then -value else value

/-- Whether a digit stands on either side of each underscore; `afterDigit` tells
whether the text follows a digit. -/
def partsDigits (isDigit : Char → Bool) (afterDigit : Bool) : List Char → Bool
  | [] => true
  | '_' :: rest =>
      afterDigit && rest.head?.any isDigit && partsDigits isDigit false rest
  | c :: rest => partsDigits isDigit (isDigit c) rest

/-- The digits that are left without the underscores, if there are only digits
and at least one. -/
def digits? (base : Nat) (word : List Char) : Option (List Char) :=
  let digits := word.filter (· ≠ '_')
  if !digits.isEmpty && digits.all (isDigitIn base) then some digits else none

/-- Digits in base ten with underscores only between them. -/
def decimalDigits? (word : List Char) : Option (List Char) :=
  if partsDigits isDigit false word then digits? 10 word else none

/-- Whether a zero stands before other characters. -/
def hasLeadingZero : List Char → Bool
  | '0' :: _ :: _ => true
  | _ => false

/-! ## Integers -/

/-- The base that a word names, and the digits after the name. -/
def splitBase? : List Char → Option (Nat × List Char)
  | '0' :: 'x' :: digits => some (16, digits)
  | '0' :: 'o' :: digits => some (8, digits)
  | '0' :: 'b' :: digits => some (2, digits)
  | _ => none

/-- Whether a character tells that a word is no integer, wherever it stands. -/
def isForeign (c : Char) : Bool :=
  c = ' ' || c = '.' || c = 'e' || c = 'E'

/-- Whether a word begins as an integer in base ten does: with digits, and an
underscore after them if the word does not end there. -/
def isDecimalOutline (word : List Char) : Bool :=
  let (_, digits) := splitSign word
  !digits.isEmpty && !hasLeadingZero digits && !digits.any isForeign &&
    partsDigits (isDigitIn 16) false digits &&
    (digits.dropWhile isDigit).head?.all (· = '_')

/-- Whether a word has the outline of an integer.  One that names its base has
no sign and may lack digits, but has no others than those of its base. -/
def isIntegerOutline (word : List Char) : Bool :=
  match splitBase? word with
  | some (base, digits) =>
      digits.all (fun c => c = '_' || isDigitIn base c) &&
        partsDigits (isDigitIn base) false digits
  | none => isDecimalOutline word

/-- The integer that a word with the outline of one stands for. -/
def integer? (word : List Char) : Option Int :=
  match splitBase? word with
  | some (base, word) => (digits? base word).map fun digits => valueIn base digits
  | none =>
      let (sign, word) := splitSign word
      (digits? 10 word).map fun digits => signed sign (valueIn 10 digits)

/-! ## Numbers with a point or an exponent -/

/-- Splits a word at the first character of a kind. -/
def splitAt (isMark : Char → Bool) (word : List Char) :
    List Char × Option (List Char) :=
  match word.dropWhile (!isMark ·) with
  | [] => (word, none)
  | _ :: rest => (word.takeWhile (!isMark ·), some rest)

/-- The digits after a point, if there is one. -/
def fraction? : Option (List Char) → Option (List Char)
  | none => some []
  | some word => decimalDigits? word

/-- An exponent, if there is one; it may have zeros before its digits. -/
def exponent? : Option (List Char) → Option Int
  | none => some 0
  | some word =>
      let (sign, word) := splitSign word
      (decimalDigits? word).map fun digits => signed sign (valueIn 10 digits)

/-- The digits and the exponent of a number with a point or an exponent. -/
def floatParts? (word : List Char) : Option (List Char × Int) := do
  let (_, word) := splitSign word
  let (mantissa, exponent) := splitAt (fun c => c = 'e' || c = 'E') word
  let (whole, fraction) := splitAt (· = '.') mantissa
  if (exponent.isNone ∧ fraction.isNone) ∨ hasLeadingZero whole then none
  else
    let whole ← decimalDigits? whole
    let fraction ← fraction? fraction
    return (whole ++ fraction, (← exponent? exponent) - fraction.length)

def isFloat (word : List Char) : Bool :=
  let (_, magnitude) := splitSign word
  magnitude = ['i', 'n', 'f'] || magnitude = ['n', 'a', 'n'] ||
    (floatParts? word).isSome

end QueryPlan.Toml.Number
