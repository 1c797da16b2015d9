import QueryPlan.Toml.Quoting
import QueryPlan.Toml.Scalar

/-!
# Reading TOML

A text is read statement by statement, and the statements are put together by
`Entries.ofStatements?`.  A statement ends with its line.  Between brackets and
braces line breaks and comments may stand between the parts, but not around the
points of a key.
-/

namespace QueryPlan.Toml.Reader

def skipBlanks (text : List Char) : List Char :=
  text.dropWhile isBlank

/-- Skips blanks, line breaks and comments; `comment` tells whether the text
begins inside a comment. -/
def skipSpace (comment : Bool) : List Char → Option (List Char)
  | [] => some []
  | '\n' :: rest => skipSpace false rest
  | '\r' :: '\n' :: rest => skipSpace false rest
  | c :: rest =>
      if comment then if isPlain c then skipSpace true rest else none
      else if isBlank c then skipSpace false rest
      else if c = '#' then skipSpace true rest
      else some (c :: rest)

/-- Skips the rest of a line, on which only blanks and a comment may stand. -/
def endLine (text : List Char) : Option (List Char) :=
  let rec skip (comment : Bool) : List Char → Option (List Char)
    | [] => some []
    | '\n' :: rest => some rest
    | '\r' :: '\n' :: rest => some rest
    | c :: rest =>
        if comment then if isPlain c then skip true rest else none
        else if isBlank c then skip false rest
        else if c = '#' then skip true rest
        else none
  skip false text

def isBareKeyChar (c : Char) : Bool :=
  c.isAlphanum || c = '_' || c = '-'

/-- One part of a key. -/
def readSimpleKey (text : List Char) : Option (String × List Char) :=
  match text with
  | '"' :: rest =>
      (Quoting.readBasic text.length rest).map fun (key, rest) =>
        (String.ofList key, rest)
  | '\'' :: rest =>
      (Quoting.readLiteral rest).map fun (key, rest) => (String.ofList key, rest)
  | text =>
      match text.takeWhile isBareKeyChar with
      | [] => none
      | key => some (String.ofList key, text.dropWhile isBareKeyChar)

/-- How deeply brackets and braces may be nested, and how many parts a key may
have. -/
def deepest : Nat := 80

/-- At most `parts` parts of a key with points between them, and the text after
the blanks that follow. -/
def readParts (parts : Nat) (text : List Char) :
    Option (List String × List Char) :=
  match parts with
  | 0 => none
  | parts + 1 => do
      let (key, rest) ← readSimpleKey text
      match skipBlanks rest with
      | '.' :: rest =>
          let (path, rest) ← readParts parts (skipBlanks rest)
          return (key :: path, rest)
      | rest => return ([key], rest)

/-- A key and the text after the blanks that follow. -/
def readKey (text : List Char) : Option (List String × List Char) :=
  readParts deepest text

mutual

/-- A value that may open `levels` more brackets or braces. -/
def readValue (fuel levels : Nat) (text : List Char) :
    Option (Value × List Char) :=
  match fuel, levels, text with
  | 0, _, _ | _, _, [] => none
  | _, 0, '[' :: _ | _, 0, '\x7b' :: _ => none
  | fuel + 1, levels + 1, '[' :: rest => do
      let (items, rest) ← readItems fuel levels rest
      return (.array items, rest)
  | fuel + 1, levels + 1, '\x7b' :: rest => do
      let (pairs, rest) ← readPairs fuel levels rest
      return (.table .inline (← Entries.ofPairs? pairs), rest)
  | _ + 1, _, c :: rest =>
      if c = '"' ∨ c = '\'' then
        (Quoting.read (c :: rest)).map fun (string, rest) =>
          (.string (String.ofList string), rest)
      else Scalar.read (c :: rest)

/-- The items of an array up to the closing bracket; a comma may stand before
it. -/
def readItems (fuel levels : Nat) (text : List Char) :
    Option (List Value × List Char) :=
  match fuel with
  | 0 => none
  | fuel + 1 => do
      match ← skipSpace false text with
      | ']' :: rest => return ([], rest)
      | text =>
          let (item, rest) ← readValue fuel levels text
          match ← skipSpace false rest with
          | ',' :: rest =>
              let (items, rest) ← readItems fuel levels rest
              return (item :: items, rest)
          | ']' :: rest => return ([item], rest)
          | _ => none

/-- The entries of an inline table up to the closing brace; a comma may stand
before it. -/
def readPairs (fuel levels : Nat) (text : List Char) :
    Option (List (List String × Value) × List Char) :=
  match fuel with
  | 0 => none
  | fuel + 1 => do
      match ← skipSpace false text with
      | '\x7d' :: rest => return ([], rest)
      | text =>
          let (path, rest) ← readKey text
          match ← skipSpace false rest with
          | '=' :: rest =>
              let (value, rest) ← readValue fuel levels (← skipSpace false rest)
              match ← skipSpace false rest with
              | ',' :: rest =>
                  let (pairs, rest) ← readPairs fuel levels rest
                  return ((path, value) :: pairs, rest)
              | '\x7d' :: rest => return ([(path, value)], rest)
              | _ => none
          | _ => none

end

/-- The path of a header, after its opening bracket. -/
def readHeader (text : List Char) : Option (List String × List Char) := do
  let (path, rest) ← readKey (skipBlanks text)
  match rest with
  | ']' :: rest => return (path, rest)
  | _ => none

/-- One statement and its line. -/
def readStatement (text : List Char) : Option (Statement × List Char) :=
  match text with
  | '[' :: '[' :: rest => do
      match ← readHeader rest with
      | (path, ']' :: rest) => return (.seriesHeader path, ← endLine rest)
      | _ => none
  | '[' :: rest => do
      let (path, rest) ← readHeader rest
      return (.header path, ← endLine rest)
  | text => do
      let (path, rest) ← readKey text
      match rest with
      | '=' :: rest =>
          let (value, rest) ← readValue (2 * text.length + 1) deepest (skipBlanks rest)
          return (.entry path value, ← endLine rest)
      | _ => none

/-- The statements of a text. -/
def readStatements (fuel : Nat) (text : List Char) : Option (List Statement) :=
  match fuel with
  | 0 => none
  | fuel + 1 => do
      match ← skipSpace false text with
      | [] => return []
      | text =>
          let (statement, rest) ← readStatement text
          return statement :: (← readStatements fuel rest)

/-- Drops the mark that some editors put at the beginning of a file. -/
def dropMark : List Char → List Char
  | '\ufeff' :: rest => rest
  | text => text

/-- The document in a text. -/
def read? (text : String) : Option Entries := do
  let text := dropMark text.toList
  Entries.ofStatements? (← readStatements (text.length + 1) text)

end QueryPlan.Toml.Reader
