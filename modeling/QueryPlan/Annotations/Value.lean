import QueryPlan.Annotations.Foreign
import QueryPlan.Literal

/-!
# Values of annotations

An annotation carries a literal, or a foreign value.  The two are never the
same.
-/

namespace QueryPlan

variable [ForeignTypes]

inductive NoteValue where
  | literal (value : Literal)
  | foreign (value : Foreign)
  deriving DecidableEq

namespace NoteValue

def literal? : NoteValue → Option Literal
  | literal value => some value
  | foreign _ => none

def foreign? : NoteValue → Option Foreign
  | literal _ => none
  | foreign value => some value

def same : NoteValue → NoteValue → Bool
  | literal a, literal b => a.same b
  | foreign a, foreign b => a.same b
  | _, _ => false

def text : NoteValue → String
  | literal value => value.text
  | foreign value => value.text

end NoteValue

end QueryPlan
