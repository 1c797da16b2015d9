import QueryPlan.Json.Basic

/-!
# Reading JSON

A text is first cut into tokens, between which blanks do not matter, and the
tokens are then read as one document.  So the layout of a document has no
influence on what is read.
-/

namespace QueryPlan.Json

inductive Token where
  /-- One of the brackets, the comma and the colon. -/
  | mark (c : Char)
  | null
  | bool (value : Bool)
  | number (value : Numeral)
  | string (body : List Char)
  deriving DecidableEq

namespace Token

def isBlank (c : Char) : Bool :=
  c = ' ' || c = '\n' || c = '\t' || c = '\r'

def isMark (c : Char) : Bool :=
  c = '\x7b' || c = '\x7d' || c = '[' || c = ']' || c = ',' || c = ':'

/-- The rest of a text that begins with a word. -/
def dropWord? (word text : List Char) : Option (List Char) :=
  if word.isPrefixOf text then some (text.drop word.length) else none

/-- The characters up to the closing quote and the text after it.  Control
characters and unknown escapes are refused. -/
def scanString : List Char → Option (List Char × List Char)
  | [] => none
  | '"' :: rest => some ([], rest)
  | '\\' :: 'u' :: a :: b :: c :: d :: rest => do
      let _ ← codeUnit? a b c d
      let (body, rest) ← scanString rest
      return ('\\' :: 'u' :: a :: b :: c :: d :: body, rest)
  | '\\' :: c :: rest => do
      let _ ← shortEscape? c
      let (body, rest) ← scanString rest
      return ('\\' :: c :: body, rest)
  | c :: rest =>
      if c.toNat < 32 then none
      else do
        let (body, rest) ← scanString rest
        return (c :: body, rest)

def naturalValue (digits : List Char) : Nat :=
  digits.foldl (fun n c => 10 * n + digitValue c) 0

/-- At least one digit, and the text after the digits. -/
def scanDigits (text : List Char) : Option (List Char × List Char) :=
  match text.takeWhile isDigit with
  | [] => none
  | digits => some (digits, text.dropWhile isDigit)

/-- Digits without a zero before others. -/
def scanWhole (text : List Char) : Option (List Char × List Char) := do
  let (digits, rest) ← scanDigits text
  match digits with
  | '0' :: _ :: _ => none
  | _ => return (digits, rest)

def scanFraction (text : List Char) : Option (List Char × List Char) :=
  match text with
  | '.' :: rest => scanDigits rest
  | _ => some ([], text)

/-- The sign of an exponent, and the text after it. -/
def scanSign : List Char → Bool × List Char
  | '-' :: rest => (true, rest)
  | '+' :: rest => (false, rest)
  | text => (false, text)

def scanExponent (text : List Char) : Option (Option Int × List Char) :=
  let read (text : List Char) := do
    let (negative, text) := scanSign text
    let (digits, rest) ← scanDigits text
    let value : Int := naturalValue digits
    return (some (if negative then -value else value), rest)
  match text with
  | 'e' :: rest | 'E' :: rest => read rest
  | _ => some (none, text)

def scanNumber (negative : Bool) (text : List Char) :
    Option (Numeral × List Char) := do
  let (whole, text) ← scanWhole text
  let (fraction, text) ← scanFraction text
  let (exponent, text) ← scanExponent text
  return (⟨negative, whole, fraction, exponent⟩, text)

/-- The token that begins with the character `c`, and the text after it. -/
def scanToken (c : Char) (rest : List Char) : Option (Token × List Char) :=
  if isMark c then some (mark c, rest)
  else if c = '"' then (scanString rest).map fun (body, rest) => (string body, rest)
  else if c = '-' then
    (scanNumber true rest).map fun (value, rest) => (number value, rest)
  else if isDigit c then
    (scanNumber false (c :: rest)).map fun (value, rest) => (number value, rest)
  else if c = 'n' then
    (dropWord? ['u', 'l', 'l'] rest).map fun rest => (null, rest)
  else if c = 't' then
    (dropWord? ['r', 'u', 'e'] rest).map fun rest => (bool true, rest)
  else if c = 'f' then
    (dropWord? ['a', 'l', 's', 'e'] rest).map fun rest => (bool false, rest)
  else none

/-- Cuts a text into tokens.  Every token takes at least one character. -/
def scan (text : List Char) : Option (List Token) :=
  match text with
  | [] => some []
  | c :: rest =>
      if isBlank c then scan rest
      else
        match scanToken c rest with
        | none => none
        | some (token, after) =>
            if after.length ≤ rest.length then
              (scan after).map (token :: ·)
            else none
  termination_by text.length

end Token

mutual

/-- Reads one document from the beginning of the tokens.  The depth bounds the
nesting; that of `read?` is never too small. -/
def readValue (depth : Nat) (tokens : List Token) : Option (Json × List Token) :=
  match depth, tokens with
  | 0, _ => none
  | _, [] => none
  | depth + 1, token :: rest =>
      match token with
      | .null => some (.null, rest)
      | .bool value => some (.bool value, rest)
      | .number value => some (.number value, rest)
      | .string body => some (.string body, rest)
      | .mark '[' =>
          match rest with
          | .mark ']' :: rest => some (.array [], rest)
          | _ => (readItems depth rest).map fun (items, rest) => (.array items, rest)
      | .mark '\x7b' =>
          match rest with
          | .mark '\x7d' :: rest => some (.object [], rest)
          | _ =>
              (readMembers depth rest).map fun (members, rest) =>
                (.object members, rest)
      | .mark _ => none

/-- Reads items up to the closing bracket. -/
def readItems (depth : Nat) (tokens : List Token) :
    Option (List Json × List Token) :=
  match depth with
  | 0 => none
  | depth + 1 =>
      match readValue depth tokens with
      | some (item, .mark ',' :: rest) =>
          (readItems depth rest).map fun (items, rest) => (item :: items, rest)
      | some (item, .mark ']' :: rest) => some ([item], rest)
      | _ => none

/-- Reads members up to the closing brace. -/
def readMembers (depth : Nat) (tokens : List Token) :
    Option (List (List Char × Json) × List Token) :=
  match depth, tokens with
  | depth + 1, .string name :: .mark ':' :: rest =>
      match readValue depth rest with
      | some (value, .mark ',' :: rest) =>
          (readMembers depth rest).map fun (members, rest) =>
            ((name, value) :: members, rest)
      | some (value, .mark '\x7d' :: rest) => some ([(name, value)], rest)
      | _ => none
  | _, _ => none

end

/-- Reads a text that holds one document and nothing else. -/
def read? (text : String) : Option Json := do
  let tokens ← Token.scan text.toList
  match readValue (2 * tokens.length + 1) tokens with
  | some (json, []) => some json
  | _ => none

end QueryPlan.Json
