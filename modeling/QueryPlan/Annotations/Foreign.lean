import QueryPlan.Digest

/-!
# Values of the callers' types

Callers attach values of types of their own.  A plan asks of such a type how two
of its values are compared, what a value is fed to a digest as, and how it is
written; `ForeignTypes` gives this for all types of the callers at once.  A
foreign value is shared: its copies are copies of one pointer, and what a
pointer leads to never changes.
-/

namespace QueryPlan

/-- The types of the callers, with the values that are shared. -/
class ForeignTypes where
  /-- What tells the types apart. -/
  Ident : Type
  [decideIdent : DecidableEq Ident]
  /-- The values of a type. -/
  Value : Ident → Type
  typeName : Ident → String
  /-- What the type itself adds to the digests of its values. -/
  typeDigest : Ident → Digest
  equal : {type : Ident} → Value type → Value type → Bool
  digest : {type : Ident} → Value type → Digest
  text : {type : Ident} → Value type → String
  /-- Where a shared value stands. -/
  Pointer : Type
  [decidePointer : DecidableEq Pointer]
  target : Pointer → (type : Ident) × Value type

attribute [reducible, instance] ForeignTypes.decideIdent ForeignTypes.decidePointer

variable [ForeignTypes]

open ForeignTypes (Ident Value Pointer target)

/-- A shared value, known by its pointer. -/
structure Foreign where
  pointer : Pointer
  deriving DecidableEq

namespace Foreign

def type (value : Foreign) : Ident :=
  (target value.pointer).1

def content (value : Foreign) : Value value.type :=
  (target value.pointer).2

def typeName (value : Foreign) : String :=
  ForeignTypes.typeName value.type

/-- The content, if it is of the given type. -/
def contentAs? (value : Foreign) (type : Ident) : Option (Value type) :=
  if htype : value.type = type then some (htype ▸ value.content) else none

/-- Whether two values are of one type, and equal as its values. -/
def alike (a b : Foreign) : Bool :=
  (b.contentAs? a.type).any (ForeignTypes.equal a.content)

/-- Values under one pointer are one value, and need not be compared. -/
def same (a b : Foreign) : Bool :=
  a.pointer = b.pointer || a.alike b

def digest (value : Foreign) : Digest :=
  ForeignTypes.typeDigest value.type ++ ForeignTypes.digest value.content

def text (value : Foreign) : String :=
  ForeignTypes.text value.content

end Foreign

end QueryPlan
