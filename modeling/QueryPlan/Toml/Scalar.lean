import QueryPlan.Toml.Basic
import QueryPlan.Toml.Moment
import QueryPlan.Toml.Number

/-!
# Scalars in TOML

A scalar that is no string is a word.  It reaches to the next delimiter, and
over blanks if more of it follows them.  What it is, is told by its whole
spelling.
-/

namespace QueryPlan.Toml

def isBlank (c : Char) : Bool :=
  c = ' ' || c = '\t'

namespace Scalar

/-- Whether a character ends a word, blanks apart. -/
def isDelimiter (c : Char) : Bool :=
  c = '=' || c = ',' || c = '[' || c = ']' || c = '\x7b' || c = '\x7d' ||
    c = '#' || c = '\r' || c = '\n'

/-- Whether a word may go on with a character after blanks.  A quote would open
a string there. -/
def mayResume (c : Char) : Bool :=
  !isBlank c && !isDelimiter c && c ≠ '.' && c ≠ '"' && c ≠ '\''

/-- Whether a character belongs to a word before the given text. -/
def isInWord (c : Char) (rest : List Char) : Bool :=
  if isBlank c then (rest.dropWhile isBlank).head?.any mayResume
  else !isDelimiter c

/-- The word at the beginning of a text, and the text after it. -/
def splitWord : List Char → List Char × List Char
  | [] => ([], [])
  | c :: rest =>
      if isInWord c rest then
        let (word, rest) := splitWord rest
        (c :: word, rest)
      else ([], c :: rest)

/-- The value that a word spells. -/
def ofWord? (word : List Char) : Option Value :=
  if word = ['t', 'r', 'u', 'e'] then some (.boolean true)
  else if word = ['f', 'a', 'l', 's', 'e'] then some (.boolean false)
  else if Number.isIntegerOutline word then some (.integer word)
  else if Number.isFloat word then some (.float word)
  else if Moment.isMoment word then some (.moment word)
  else none

/-- A scalar that is no string, and the text after it. -/
def read (text : List Char) : Option (Value × List Char) :=
  let (word, rest) := splitWord text
  (ofWord? word).map fun value => (value, rest)

end Scalar

end QueryPlan.Toml
