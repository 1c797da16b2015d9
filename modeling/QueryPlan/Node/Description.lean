import QueryPlan.Node.Basic

/-!
# Descriptions of plans

A plan as a tree of names and texts, fit for storage.  Each node keeps its
kind, its own fields as pairs of texts, its annotations and its children.
-/

namespace QueryPlan

variable [ForeignTypes]

structure Pair where
  key : String
  value : String
  deriving DecidableEq

structure Description where
  kind : Kind
  details : List Pair
  annotations : List Pair
  children : List Description

namespace Description

/-- The description of a node of which only the kind is known. -/
def ofKind (kind : Kind) : Description :=
  ⟨kind, [], [], []⟩

/-- Adds a detail after the others. -/
def withDetail (description : Description) (key value : String) : Description :=
  { description with details := description.details ++ [⟨key, value⟩] }

/-- The value of the first detail with a key. -/
def detail? (description : Description) (key : String) : Option String :=
  (description.details.find? (·.key = key)).map (·.value)

end Description

/-- A pair for a field that may be absent. -/
def Pair.ofOption (key : String) : Option String → List Pair
  | some value => [⟨key, value⟩]
  | none => []

/-- The own fields of a node with the given type. -/
def Label.details (label : Label) (type : DataType) : List Pair :=
  match label with
  | .table name schema aliasName =>
      ⟨"name", name⟩ :: Pair.ofOption "schema" schema ++ Pair.ofOption "alias" aliasName
  | .join _ | .joinOn _ => []
  | .column qualifier name _ =>
      ⟨"type", type.name⟩ :: Pair.ofOption "table" qualifier ++ [⟨"name", name⟩]
  | .constant value _ => [⟨"type", type.name⟩, ⟨"value", value.text⟩]
  | .parameter name _ => [⟨"type", type.name⟩, ⟨"name", name⟩]
  | .binary op => [⟨"type", type.name⟩, ⟨"op", op.symbol⟩]
  | .unary op => [⟨"type", type.name⟩, ⟨"op", op.keyword⟩]
  | .call signature _ => [⟨"type", type.name⟩, ⟨"signature", signature.text⟩]

def Annotations.pairs (annotations : Annotations) : List Pair :=
  annotations.notes.map fun note => ⟨note.name, note.value.text⟩

namespace Node

mutual

def describe (node : Node) : Description :=
  match node with
  | ⟨_, label, type, annotations, children⟩ =>
      ⟨label.kind, label.details type, annotations.pairs, describeAll children⟩

def describeAll : List Node → List Description
  | [] => []
  | node :: rest => describe node :: describeAll rest

end

end Node

end QueryPlan
