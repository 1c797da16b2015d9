import QueryPlan.Node.Basic

/-!
# Digests of plans

Plans that are the same have one digest.  The kinds of table sources are not
part of it, so that joins of different kinds over the same parts meet in one
bucket and are told apart by equality alone.
-/

namespace QueryPlan

variable [ForeignTypes]

open Digest

/-- Numbers that are equal have one digest. -/
def Literal.digest : Literal → Digest
  | .null => [.byte 0]
  | .bool value => [.byte 1, flag value]
  | .int value => [.byte 2, integer value]
  | .float value => [.byte 3, .word value.canonical.bits]
  | .string value => [.byte 4, .text value]
  | .bytes value => .byte 5 :: ofList (fun byte => [.byte byte]) value

def NoteValue.digest : NoteValue → Digest
  | .literal value => number 0 :: value.digest
  | .foreign value => number 1 :: value.digest

def Note.digest (note : Note) : Digest :=
  .text note.name :: note.value.digest

def Annotations.digest (annotations : Annotations) : Digest :=
  Digest.ofList Note.digest annotations.notes

def Signature.digest (signature : Signature) : Digest :=
  ofOption signature.declaring ++ .text signature.name ::
    ofList (fun parameter => [.text parameter]) signature.parameters

/-- The own fields of a node with `count` children.  The form of a join is left
out. -/
def Label.digest (label : Label) (count : Nat) : Digest :=
  match label with
  | .table name schema aliasName => .text name :: ofOption schema ++ ofOption aliasName
  | .join _ | .joinOn _ => []
  | .column qualifier name type =>
      ofOption qualifier ++ [.text name, number type.rank]
  | .constant value type => value.digest ++ [number type.rank]
  | .parameter name type => [.text name, number type.rank]
  | .binary op => [number op.rank]
  | .unary op => [number op.rank]
  | .call signature type =>
      signature.digest ++ [number type.rank, number count]

namespace Node

mutual

/-- The digest of a node as a part of another. -/
def inner (node : Node) : Digest :=
  match node with
  | ⟨_, label, _, annotations, children⟩ =>
      label.digest children.length ++ innerAll children ++ annotations.digest

def innerAll : List Node → Digest
  | [] => []
  | node :: rest => inner node ++ innerAll rest

end

/-- The digest of a whole plan begins with its category. -/
def digest (node : Node) : Digest :=
  number (if node.category = .source then 0 else 1) :: node.inner

end Node

end QueryPlan
