import QueryPlan.Json.Basic
import QueryPlan.Text.Quoted

/-!
# Strings in TOML

A string has four written forms: basic and literal, each on one line or over
several.  A basic string has escapes, a literal one has none.  `write` takes the
plainest form that can hold a text.
-/

namespace QueryPlan.Toml

/-- Whether a character may stand in a string as it is. -/
def isPlain (c : Char) : Bool :=
  c = '\t' || (32 ≤ c.toNat && c.toNat ≠ 127)

/-- The rest of a text that begins with a line break. -/
def dropNewline? : List Char → Option (List Char)
  | '\n' :: rest => some rest
  | '\r' :: '\n' :: rest => some rest
  | _ => none

/-- Drops one line break at the beginning. -/
def trimNewline (text : List Char) : List Char :=
  (dropNewline? text).getD text

namespace Quoting

/-! ## Reading -/

/-- The number that hexadecimal digits stand for. -/
def hexNumber? (digits : List Char) : Option Nat :=
  digits.foldlM (fun n c => do return 16 * n + (← Json.hexValue? c)) 0

/-- The character with a number, if there is one. -/
def char? (n : Nat) : Option Char :=
  if n.isValidChar then some (Char.ofNat n) else none

/-- The character that a letter stands for after a backslash. -/
def shortEscape? : Char → Option Char
  | '"' => some '"'
  | '\\' => some '\\'
  | 'b' => some '\x08'
  | 'e' => some '\x1b'
  | 'f' => some '\x0c'
  | 'n' => some '\n'
  | 'r' => some '\r'
  | 't' => some '\t'
  | _ => none

/-- How many digits follow a letter that introduces a number. -/
def escapeWidth? : Char → Option Nat
  | 'x' => some 2
  | 'u' => some 4
  | 'U' => some 8
  | _ => none

/-- The character of an escape, read after its backslash. -/
def readEscape : List Char → Option (Char × List Char)
  | [] => none
  | c :: rest =>
      match escapeWidth? c with
      | some width => do
          let digits := rest.take width
          if digits.length < width then none
          else return (← char? (← hexNumber? digits), rest.drop width)
      | none => (shortEscape? c).map fun char => (char, rest)

/-- Puts a character before a text that was read. -/
def before (c : Char) (result : List Char × List Char) : List Char × List Char :=
  (c :: result.1, result.2)

/-- A basic string on one line, after its opening quote. -/
def readBasic (fuel : Nat) (text : List Char) : Option (List Char × List Char) :=
  match fuel, text with
  | 0, _ | _, [] => none
  | _, '"' :: rest => some ([], rest)
  | fuel + 1, '\\' :: rest => do
      let (c, rest) ← readEscape rest
      (readBasic fuel rest).map (before c)
  | fuel + 1, c :: rest =>
      if isPlain c then (readBasic fuel rest).map (before c) else none

/-- A literal string on one line, after its opening quote. -/
def readLiteral : List Char → Option (List Char × List Char)
  | [] => none
  | '\'' :: rest => some ([], rest)
  | c :: rest => if isPlain c then (readLiteral rest).map (before c) else none

/-- A backslash at the end of a line takes the blanks around the line break and
all blank lines after it with it. -/
def skipLineEnd (text : List Char) : Option (List Char) := do
  let blank := fun c => c = ' ' || c = '\t'
  let rest ← dropNewline? (text.dropWhile blank)
  let rec skip : List Char → List Char
    | ' ' :: rest | '\t' :: rest | '\n' :: rest => skip rest
    | '\r' :: '\n' :: rest => skip rest
    | rest => rest
  return skip rest

/-- The quotes at the end of a string over several lines: up to two belong to
the text, the last three close it. -/
def closeQuotes (quote : Char) (text : List Char) :
    Option (List Char × List Char) :=
  let quotes := (text.takeWhile (· = quote)).length
  if 3 ≤ quotes then
    let kept := min quotes 5 - 3
    some (List.replicate kept quote, text.drop (kept + 3))
  else none

/-- A basic string over several lines, after its opening quotes and the line
break that may follow them. -/
def readLongBasic (fuel : Nat) (text : List Char) :
    Option (List Char × List Char) :=
  match fuel, text with
  | 0, _ | _, [] => none
  | fuel + 1, '"' :: rest =>
      match closeQuotes '"' text with
      | some result => some result
      | none => (readLongBasic fuel rest).map (before '"')
  | fuel + 1, '\\' :: rest =>
      match skipLineEnd rest with
      | some rest => readLongBasic fuel rest
      | none => do
          let (c, rest) ← readEscape rest
          (readLongBasic fuel rest).map (before c)
  | fuel + 1, '\r' :: '\n' :: rest =>
      (readLongBasic fuel rest).map fun result => before '\r' (before '\n' result)
  | fuel + 1, c :: rest =>
      if isPlain c || c = '\n' then (readLongBasic fuel rest).map (before c)
      else none

/-- A literal string over several lines, after its opening quotes and the line
break that may follow them. -/
def readLongLiteral (fuel : Nat) (text : List Char) :
    Option (List Char × List Char) :=
  match fuel, text with
  | 0, _ | _, [] => none
  | fuel + 1, '\'' :: rest =>
      match closeQuotes '\'' text with
      | some result => some result
      | none => (readLongLiteral fuel rest).map (before '\'')
  | fuel + 1, '\r' :: '\n' :: rest =>
      (readLongLiteral fuel rest).map fun result =>
        before '\r' (before '\n' result)
  | fuel + 1, c :: rest =>
      if isPlain c || c = '\n' then (readLongLiteral fuel rest).map (before c)
      else none

/-- A string in any of its forms. -/
def read (text : List Char) : Option (List Char × List Char) :=
  match text with
  | '"' :: '"' :: '"' :: rest => readLongBasic text.length (trimNewline rest)
  | '"' :: rest => readBasic text.length rest
  | '\'' :: '\'' :: '\'' :: rest => readLongLiteral text.length (trimNewline rest)
  | '\'' :: rest => readLiteral rest
  | _ => none

/-! ## Writing -/

/-- The length of the longest run of a character. -/
def longestRun (quote : Char) (text : List Char) : Nat :=
  let rec go (run : Nat) : List Char → Nat
    | [] => run
    | c :: rest => if c = quote then max run (go (run + 1) rest) else max run (go 0 rest)
  go 0 text

/-- Control characters other than tabs and line feeds have no plain form. -/
def needsEscape (c : Char) : Bool :=
  c ≠ '\n' && !isPlain c

/-- A control character as four hexadecimal digits. -/
def numbered (c : Char) : List Char :=
  ['\\', 'u', '0', '0', Text.upperHexDigit (c.toNat / 16),
    Text.upperHexDigit (c.toNat % 16)]

/-- One character of a basic string, quotes apart. -/
def escapeChar (keepNewline : Bool) (c : Char) : List Char :=
  if c = '\n' ∧ keepNewline then ['\n']
  else match c with
  | '\\' => ['\\', '\\']
  | '\x08' => ['\\', 'b']
  | '\t' => ['\\', 't']
  | '\n' => ['\\', 'n']
  | '\x0c' => ['\\', 'f']
  | '\r' => ['\\', 'r']
  | c => if isPlain c then [c] else numbered c

/-- The characters of a basic string.  After `allowed` quotes in a row the next
one is escaped. -/
def escapeFrom (keepNewline : Bool) (allowed : Nat) : Nat → List Char → List Char
  | _, [] => []
  | run, c :: rest =>
      if c = '"' then
        if run < allowed then '"' :: escapeFrom keepNewline allowed (run + 1) rest
        else '\\' :: '"' :: escapeFrom keepNewline allowed 0 rest
      else escapeChar keepNewline c ++ escapeFrom keepNewline allowed 0 rest

def writeBasic (text : List Char) : List Char :=
  '"' :: escapeFrom false 0 0 text ++ ['"']

def writeLiteral (text : List Char) : List Char :=
  '\'' :: text ++ ['\'']

/-- A text that has a line break begins on a line of its own. -/
def leadingNewline (text : List Char) : List Char :=
  if text.contains '\n' then ['\n'] else []

def writeLongBasic (text : List Char) : List Char :=
  ['"', '"', '"'] ++ leadingNewline text ++ escapeFrom true 2 0 text
    ++ ['"', '"', '"']

def writeLongLiteral (text : List Char) : List Char :=
  ['\'', '\'', '\''] ++ leadingNewline text ++ text ++ ['\'', '\'', '\'']

/-- The plainest form that holds a text: basic if nothing needs an escape, then
literal, then the same over several lines; else basic with escapes. -/
def write (text : List Char) : List Char :=
  let control := text.any needsEscape
  let newline := text.contains '\n'
  let backslash := text.contains '\\'
  let quotes := longestRun '"' text
  let apostrophes := longestRun '\'' text
  if !control && !backslash && quotes = 0 && !newline then writeBasic text
  else if !control && apostrophes = 0 && !newline then writeLiteral text
  else if !control && !backslash && quotes ≤ 2 then writeLongBasic text
  else if !control && apostrophes ≤ 2 then writeLongLiteral text
  else if newline then writeLongBasic text
  else writeBasic text

end Quoting

end QueryPlan.Toml
