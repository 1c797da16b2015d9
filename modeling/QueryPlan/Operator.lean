import QueryPlan.DataType

/-!
# Operators

Symbols of the operators and the types of their results.  The result type of
an arithmetic operator is the type of its left operand, unless that is unknown.
-/

namespace QueryPlan

inductive BinaryOperator where
  | add
  | subtract
  | multiply
  | divide
  | modulo
  | equal
  | notEqual
  | lessThan
  | lessThanOrEqual
  | greaterThan
  | greaterThanOrEqual
  | and
  | or
  | concat
  | like
  deriving DecidableEq

namespace BinaryOperator

def all : List BinaryOperator :=
  [add, subtract, multiply, divide, modulo, equal, notEqual, lessThan,
    lessThanOrEqual, greaterThan, greaterThanOrEqual, and, or, concat, like]

/-- The place of an operator in `all`. -/
def rank : BinaryOperator → Nat
  | add => 0
  | subtract => 1
  | multiply => 2
  | divide => 3
  | modulo => 4
  | equal => 5
  | notEqual => 6
  | lessThan => 7
  | lessThanOrEqual => 8
  | greaterThan => 9
  | greaterThanOrEqual => 10
  | and => 11
  | or => 12
  | concat => 13
  | like => 14

/-- The word that stands for an operator in stored documents. -/
def tag : BinaryOperator → String
  | add => "Add"
  | subtract => "Subtract"
  | multiply => "Multiply"
  | divide => "Divide"
  | modulo => "Modulo"
  | equal => "Equal"
  | notEqual => "NotEqual"
  | lessThan => "LessThan"
  | lessThanOrEqual => "LessThanOrEqual"
  | greaterThan => "GreaterThan"
  | greaterThanOrEqual => "GreaterThanOrEqual"
  | and => "And"
  | or => "Or"
  | concat => "Concat"
  | like => "Like"

def ofTag? (text : String) : Option BinaryOperator :=
  all.find? (·.tag == text)

def symbol : BinaryOperator → String
  | add => "+"
  | subtract => "-"
  | multiply => "*"
  | divide => "/"
  | modulo => "%"
  | equal => "="
  | notEqual => "<>"
  | lessThan => "<"
  | lessThanOrEqual => "<="
  | greaterThan => ">"
  | greaterThanOrEqual => ">="
  | and => "AND"
  | or => "OR"
  | concat => "||"
  | like => "LIKE"

def isComparison : BinaryOperator → Bool
  | equal | notEqual | lessThan | lessThanOrEqual | greaterThan
  | greaterThanOrEqual | like => true
  | _ => false

def isLogical : BinaryOperator → Bool
  | and | or => true
  | _ => false

def resultType (op : BinaryOperator) (left right : DataType) : DataType :=
  if op.isComparison || op.isLogical then .boolean
  else if op = concat then .string
  else if left = .unknown then right
  else left

theorem ofTag?_tag (op : BinaryOperator) : ofTag? op.tag = some op := by
  cases op <;> decide

end BinaryOperator

inductive UnaryOperator where
  | not
  | negate
  | isNull
  | isNotNull
  deriving DecidableEq

namespace UnaryOperator

def all : List UnaryOperator :=
  [not, negate, isNull, isNotNull]

/-- The place of an operator in `all`. -/
def rank : UnaryOperator → Nat
  | not => 0
  | negate => 1
  | isNull => 2
  | isNotNull => 3

/-- The word that stands for an operator in stored documents. -/
def tag : UnaryOperator → String
  | not => "Not"
  | negate => "Negate"
  | isNull => "IsNull"
  | isNotNull => "IsNotNull"

def ofTag? (text : String) : Option UnaryOperator :=
  all.find? (·.tag == text)

/-- The operator without the blank that parts it from its operand. -/
def keyword : UnaryOperator → String
  | not => "NOT"
  | negate => "-"
  | isNull => "IS NULL"
  | isNotNull => "IS NOT NULL"

/-- The operator with the blank that parts it from its operand. -/
def symbol : UnaryOperator → String
  | not => "NOT "
  | negate => "-"
  | isNull => " IS NULL"
  | isNotNull => " IS NOT NULL"

/-- Whether the operator is written after its operand. -/
def isTrailing : UnaryOperator → Bool
  | isNull | isNotNull => true
  | _ => false

def resultType (op : UnaryOperator) (operand : DataType) : DataType :=
  if op = negate then operand else .boolean

theorem ofTag?_tag (op : UnaryOperator) : ofTag? op.tag = some op := by
  cases op <;> decide

end UnaryOperator

end QueryPlan
