import QueryPlan.Json.Basic

/-!
# Printing JSON

Two layouts: on one line without blanks, and over several lines with two blanks
for each level.  An exponent always has a sign.
-/

namespace QueryPlan.Json

def word : Json → List Char
  | null => ['n', 'u', 'l', 'l']
  | bool true => ['t', 'r', 'u', 'e']
  | bool false => ['f', 'a', 'l', 's', 'e']
  | number value => value.chars true
  | string body => '"' :: body ++ ['"']
  | array _ | object _ => []

mutual

def compact (json : Json) : List Char :=
  match json with
  | array items => '[' :: compactItems items ++ [']']
  | object members => '\x7b' :: compactMembers members ++ ['\x7d']
  | json => json.word

def compactItems : List Json → List Char
  | [] => []
  | [item] => compact item
  | item :: rest => compact item ++ ',' :: compactItems rest

def compactMembers : List (List Char × Json) → List Char
  | [] => []
  | [(name, value)] => '"' :: name ++ '"' :: ':' :: compact value
  | (name, value) :: rest =>
      '"' :: name ++ '"' :: ':' :: compact value ++ ',' :: compactMembers rest

end

/-- The beginning of a line at a level. -/
def newline (level : Nat) : List Char :=
  '\n' :: List.replicate (2 * level) ' '

mutual

def pretty (level : Nat) (json : Json) : List Char :=
  match json with
  | array [] => ['[', ']']
  | array (item :: rest) =>
      '[' :: prettyItems (level + 1) (item :: rest) ++ newline level ++ [']']
  | object [] => ['\x7b', '\x7d']
  | object (member :: rest) =>
      '\x7b' :: prettyMembers (level + 1) (member :: rest) ++ newline level
        ++ ['\x7d']
  | json => json.word

def prettyItems (level : Nat) : List Json → List Char
  | [] => []
  | [item] => newline level ++ pretty level item
  | item :: rest =>
      newline level ++ pretty level item ++ ',' :: prettyItems level rest

def prettyMembers (level : Nat) : List (List Char × Json) → List Char
  | [] => []
  | [(name, value)] =>
      newline level ++ '"' :: name ++ '"' :: ':' :: ' ' :: pretty level value
  | (name, value) :: rest =>
      newline level ++ '"' :: name ++ '"' :: ':' :: ' ' :: pretty level value
        ++ ',' :: prettyMembers level rest

end

/-- The text of a document on one line. -/
def text (json : Json) : String :=
  String.ofList json.compact

/-- The text of a document over several lines. -/
def prettyText (json : Json) : String :=
  String.ofList (json.pretty 0)

end QueryPlan.Json
