/-!
# Signatures of functions

A function is known by the type that declares it, if any, its name and the
names of its parameter types.  Signatures are ordered field by field, with
functions of no declaring type first.
-/

namespace QueryPlan

structure Signature where
  declaring : Option String
  name : String
  parameters : List String
  deriving DecidableEq

namespace Signature

def arity (signature : Signature) : Nat :=
  signature.parameters.length

/-- The name as it is written in a call. -/
def qualifiedName (signature : Signature) : String :=
  match signature.declaring with
  | some declaring => declaring ++ "." ++ signature.name
  | none => signature.name

def text (signature : Signature) : String :=
  signature.qualifiedName ++ "(" ++ ", ".intercalate signature.parameters ++ ")"

/-- Lexicographic comparison of lists, a proper beginning coming first. -/
def compareLists : List String → List String → Ordering
  | [], [] => .eq
  | [], _ :: _ => .lt
  | _ :: _, [] => .gt
  | a :: as, b :: bs => (compare a b).then (compareLists as bs)

def compareDeclaring : Option String → Option String → Ordering
  | none, none => .eq
  | none, some _ => .lt
  | some _, none => .gt
  | some a, some b => compare a b

/-- The order of signatures: declaring type, then name, then parameters. -/
def order (a b : Signature) : Ordering :=
  (compareDeclaring a.declaring b.declaring).then
    ((compare a.name b.name).then (compareLists a.parameters b.parameters))

/-- Signatures in their order; equal ones keep their places. -/
def sort (signatures : List Signature) : List Signature :=
  signatures.mergeSort fun a b => (order a b).isLE

end Signature

end QueryPlan
