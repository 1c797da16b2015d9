import QueryPlan.Decimal.Numeral

/-!
# JSON documents

Strings and numbers are kept as they are written.  What a string means is told
by `unescape`, which fails on an escape that stands for no character; such a
string may stand in a document as long as nobody asks for its meaning.
-/

namespace QueryPlan

inductive Json where
  | null
  | bool (value : Bool)
  | number (value : Numeral)
  /-- The characters between the quotes. -/
  | string (body : List Char)
  | array (items : List Json)
  /-- Members in the order in which they are written; names may recur. -/
  | object (members : List (List Char × Json))

namespace Json

def hexValue? (c : Char) : Option Nat :=
  if '0' ≤ c ∧ c ≤ '9' then some (c.toNat - 48)
  else if 'a' ≤ c ∧ c ≤ 'f' then some (c.toNat - 87)
  else if 'A' ≤ c ∧ c ≤ 'F' then some (c.toNat - 55)
  else none

/-- The number that four hexadecimal digits stand for. -/
def codeUnit? (a b c d : Char) : Option Nat := do
  return (((← hexValue? a) * 16 + (← hexValue? b)) * 16 + (← hexValue? c)) * 16
    + (← hexValue? d)

/-- The character that a letter stands for after a backslash. -/
def shortEscape? : Char → Option Char
  | '"' => some '"'
  | '\\' => some '\\'
  | '/' => some '/'
  | 'b' => some '\x08'
  | 'f' => some '\x0c'
  | 'n' => some '\n'
  | 'r' => some '\r'
  | 't' => some '\t'
  | _ => none

def hexDigit (n : Nat) : Char :=
  if n < 10 then Char.ofNat (48 + n) else Char.ofNat (87 + n)

/-- One character as it is written between quotes. -/
def escapeChar (c : Char) : List Char :=
  match c with
  | '"' => ['\\', '"']
  | '\\' => ['\\', '\\']
  | '\x08' => ['\\', 'b']
  | '\x0c' => ['\\', 'f']
  | '\n' => ['\\', 'n']
  | '\r' => ['\\', 'r']
  | '\t' => ['\\', 't']
  | c =>
      if c.toNat < 32 then
        ['\\', 'u', '0', '0', hexDigit (c.toNat / 16), hexDigit (c.toNat % 16)]
      else [c]

def escape (text : List Char) : List Char :=
  text.flatMap escapeChar

/-- The characters that a written string stands for.  A code unit in the range
of surrogates counts only together with its partner. -/
def unescape : List Char → Option (List Char)
  | [] => some []
  | '\\' :: 'u' :: a :: b :: c :: d :: rest => do
      let unit ← codeUnit? a b c d
      if 0xDC00 ≤ unit ∧ unit ≤ 0xDFFF then none
      else if 0xD800 ≤ unit ∧ unit ≤ 0xDBFF then
        match rest with
        | '\\' :: 'u' :: a' :: b' :: c' :: d' :: rest =>
            let partner ← codeUnit? a' b' c' d'
            if 0xDC00 ≤ partner ∧ partner ≤ 0xDFFF then
              let char := Char.ofNat
                (0x10000 + (unit - 0xD800) * 0x400 + (partner - 0xDC00))
              return char :: (← unescape rest)
            else none
        | _ => none
      else return Char.ofNat unit :: (← unescape rest)
  | '\\' :: c :: rest => do
      return (← shortEscape? c) :: (← unescape rest)
  | c :: rest => return c :: (← unescape rest)

def ofString (text : String) : Json :=
  string (escape text.toList)

def ofInt (value : Int) : Json :=
  number (.ofInt value)

/-- The meaning of a string. -/
def text? : Json → Option String
  | string body => (unescape body).map String.ofList
  | _ => none

end Json

end QueryPlan
