import QueryPlan.Handle
import QueryPlan.Annotations.Value

/-!
# Sets of annotations

A set maps names to values and lists them by name.  A set that holds something
has a storage of its own, known by a handle; the empty set needs none.  Setting
a name to a value that it already has gives back the set with its storage, even
if the two values are written differently.
-/

namespace QueryPlan

variable [ForeignTypes]

/-- One name with its value. -/
structure Note where
  name : String
  value : NoteValue
  deriving DecidableEq

namespace Note

def same (a b : Note) : Bool :=
  a.name = b.name && a.value.same b.value

def text (note : Note) : String :=
  note.name ++ "=" ++ note.value.text

/-- Equality of lists, note by note. -/
def sameAll : List Note → List Note → Bool
  | [], [] => true
  | a :: as, b :: bs => a.same b && sameAll as bs
  | _, _ => false

end Note

/-- Notes under keys, sorted by key. -/
structure Annotations where
  storage : Option Handle
  entries : List (String × Note)

namespace Annotations

def empty : Annotations := ⟨none, []⟩

/-- The notes in the order of their keys. -/
def notes (annotations : Annotations) : List Note :=
  annotations.entries.map (·.2)

/-- Puts a note under a key, in its place among entries that are sorted by key,
instead of a note under the same key. -/
def putEntry (key : String) (note : Note) :
    List (String × Note) → List (String × Note)
  | [] => [(key, note)]
  | (first, firstNote) :: rest =>
      if key < first then (key, note) :: (first, firstNote) :: rest
      else if key = first then (first, note) :: rest
      else (first, firstNote) :: putEntry key note rest

/-- Puts a note under its name. -/
def putNote (note : Note) (entries : List (String × Note)) :
    List (String × Note) :=
  putEntry note.name note entries

def get? (annotations : Annotations) (name : String) : Option NoteValue :=
  (annotations.entries.find? (·.1 = name)).map (·.2.value)

def contains (annotations : Annotations) (name : String) : Bool :=
  (annotations.get? name).isSome

def size (annotations : Annotations) : Nat :=
  annotations.entries.length

def isEmpty (annotations : Annotations) : Bool :=
  annotations.size == 0

/-- Whether a name has the given value. -/
def has (annotations : Annotations) (name : String) (value : NoteValue) : Bool :=
  (annotations.get? name).any (·.same value)

/-- The set in which `name` has the given value.  A set that has it already is
kept; any other change is stored under the handle `fresh`. -/
def set (fresh : Handle) (annotations : Annotations) (name : String)
    (value : NoteValue) : Annotations :=
  if annotations.has name value then annotations
  else ⟨some fresh, putNote ⟨name, value⟩ annotations.entries⟩

/-- The set of all given notes, in which the last of a name counts. -/
def ofList (fresh : Handle) (pairs : List (String × NoteValue)) : Annotations :=
  if pairs.isEmpty then empty
  else
    ⟨some fresh, pairs.foldl
      (fun entries (name, value) => putNote ⟨name, value⟩ entries) []⟩

/-- Whether two sets have one storage; all sets without one count as shared. -/
def shares (a b : Annotations) : Bool :=
  a.storage = b.storage

/-- Equality of sets: one storage, or the same notes. -/
def same (a b : Annotations) : Bool :=
  a.shares b || Note.sameAll a.notes b.notes

def text (annotations : Annotations) : String :=
  "[" ++ ", ".intercalate (annotations.notes.map (·.text)) ++ "]"

end Annotations

end QueryPlan
