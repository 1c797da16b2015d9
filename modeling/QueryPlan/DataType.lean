/-!
# Data types of scalar expressions

The type of an expression as far as a plan needs it.  `unknown` stands for a
type that is settled elsewhere; it fits everywhere.  The main operation is
`accepts`, which says which values may stand where a type was declared.
-/

namespace QueryPlan

inductive DataType where
  | boolean
  | integer
  | float
  | decimal
  | string
  | binary
  | unknown
  deriving DecidableEq

namespace DataType

/-- Every type, in the order used for comparison. -/
def all : List DataType :=
  [boolean, integer, float, decimal, string, binary, unknown]

/-- The place of a type in `all`. -/
def rank : DataType → Nat
  | boolean => 0
  | integer => 1
  | float => 2
  | decimal => 3
  | string => 4
  | binary => 5
  | unknown => 6

def name : DataType → String
  | boolean => "boolean"
  | integer => "integer"
  | float => "float"
  | decimal => "decimal"
  | string => "string"
  | binary => "binary"
  | unknown => "unknown"

/-- The word that stands for a type in stored documents. -/
def tag : DataType → String
  | boolean => "Boolean"
  | integer => "Integer"
  | float => "Float"
  | decimal => "Decimal"
  | string => "String"
  | binary => "Binary"
  | unknown => "Unknown"

def ofTag? (text : String) : Option DataType :=
  all.find? (·.tag == text)

/-- Whether an expression of this type may stand where a truth value is
needed: in a join predicate or under a logical operator. -/
def isBooleanCompatible : DataType → Bool
  | boolean | unknown => true
  | _ => false

/-- Whether a place declared with type `declared` takes a value of type
`actual`: integers widen to floats, and both widen to decimals. -/
def accepts (declared actual : DataType) : Bool :=
  match declared, actual with
  | unknown, _ | _, unknown => true
  | float, integer | decimal, integer | decimal, float => true
  | _, _ => declared == actual

theorem ofTag?_tag (a : DataType) : ofTag? a.tag = some a := by
  cases a <;> decide

end DataType

end QueryPlan
