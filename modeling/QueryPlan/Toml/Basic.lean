/-!
# TOML documents

A document is a list of statements: headers, which open a table, and entries,
which set a key of the table that was opened last.  `Entries.ofStatements?`
puts them together and refuses a document that defines something twice.

How a table came to be decides what may be added to it.  A table under its own
header is not opened again, one that was only passed through may be opened
later, one made by a dotted key takes only dotted keys, and an inline table is
closed.
-/

namespace QueryPlan.Toml

/-- How a table came to be. -/
inductive Form where
  /-- It has a header of its own. -/
  | header
  /-- It was passed through by the header of another table. -/
  | implied
  /-- It was passed through by a dotted key. -/
  | dotted
  /-- It was written between braces. -/
  | inline
  deriving DecidableEq

inductive Value where
  | string (text : String)
  /-- An integer as it is written.  Its spelling may turn out to be that of no
  number when somebody looks at it. -/
  | integer (lexeme : List Char)
  | boolean (value : Bool)
  /-- A number with a point or an exponent, as it is written. -/
  | float (lexeme : List Char)
  /-- A date, a time or both, as it is written. -/
  | moment (lexeme : List Char)
  | array (items : List Value)
  /-- The tables under headers of one name. -/
  | series (tables : List (List (String × Value)))
  | table (form : Form) (entries : List (String × Value))

/-- The keys of a table with their values. -/
abbrev Entries := List (String × Value)

inductive Statement where
  | header (path : List String)
  | seriesHeader (path : List String)
  | entry (path : List String) (value : Value)

namespace Entries

def get? (entries : Entries) (key : String) : Option Value :=
  (entries.find? (·.1 = key)).map (·.2)

/-- Sets a key, instead of any value it had. -/
def put (key : String) (value : Value) : Entries → Entries
  | [] => [(key, value)]
  | (first, firstValue) :: rest =>
      if first = key then (key, value) :: rest
      else (first, firstValue) :: put key value rest

/-- Changes the last table of a series. -/
def modifyLast (change : Entries → Option Entries) :
    List Entries → Option (List Entries)
  | [] => none
  | [last] => (change last).map fun last => [last]
  | first :: rest => (modifyLast change rest).map (first :: ·)

/-- Changes the table that the header `path` leads to.  Tables that do not
exist are implied. -/
def under (path : List String) (change : Entries → Option Entries)
    (entries : Entries) : Option Entries :=
  match path with
  | [] => change entries
  | key :: rest =>
      match entries.get? key with
      | none =>
          (under rest change []).map fun inner =>
            entries.put key (.table .implied inner)
      | some (.series tables) =>
          (modifyLast (under rest change) tables).map fun tables =>
            entries.put key (.series tables)
      | some (.table form inner) =>
          if form = .inline then none
          else (under rest change inner).map fun inner =>
            entries.put key (.table form inner)
      | some _ => none

/-- Whether a dotted key may lead through a table, or end in it. -/
def admitsDotted (form : Form) (isLast : Bool) : Bool :=
  form = .dotted || (form = .implied && !isLast)

/-- Sets a key.  A dotted key leads through tables of its own and may not end
in a table that was made otherwise. -/
def set (path : List String) (value : Value) (entries : Entries) :
    Option Entries :=
  match path with
  | [] => none
  | [key] =>
      match entries.get? key with
      | none => some (entries ++ [(key, value)])
      | some _ => none
  | key :: next :: rest =>
      match entries.get? key with
      | none =>
          (set (next :: rest) value []).map fun inner =>
            entries.put key (.table .dotted inner)
      | some (.series tables) =>
          if rest.isEmpty then none
          else (modifyLast (set (next :: rest) value) tables).map fun tables =>
            entries.put key (.series tables)
      | some (.table form inner) =>
          if admitsDotted form rest.isEmpty then
            (set (next :: rest) value inner).map fun inner =>
              entries.put key (.table form inner)
          else none
      | some _ => none

/-- Opens a table under its own header. -/
def openTable (key : String) (entries : Entries) : Option Entries :=
  match entries.get? key with
  | none => some (entries ++ [(key, .table .header [])])
  | some (.table .implied inner) => some (entries.put key (.table .header inner))
  | some _ => none

/-- Opens the next table of a series. -/
def openSeries (key : String) (entries : Entries) : Option Entries :=
  match entries.get? key with
  | none => some (entries ++ [(key, .series [[]])])
  | some (.series tables) => some (entries.put key (.series (tables ++ [[]])))
  | some _ => none

/-- Adds the statements to a document in which the table `current` was opened
last. -/
def add (current : List String) (statements : List Statement)
    (entries : Entries) : Option Entries :=
  match statements with
  | [] => some entries
  | .header path :: rest => do
      let key ← path.getLast?
      add path rest (← under path.dropLast (openTable key) entries)
  | .seriesHeader path :: rest => do
      let key ← path.getLast?
      add path rest (← under path.dropLast (openSeries key) entries)
  | .entry path value :: rest => do
      add current rest (← under current (set path value) entries)

def ofStatements? (statements : List Statement) : Option Entries :=
  add [] statements []

/-- The entries of an inline table. -/
def ofPairs? (pairs : List (List String × Value)) : Option Entries :=
  pairs.foldlM (fun entries (path, value) => set path value entries) []

end Entries

end QueryPlan.Toml
