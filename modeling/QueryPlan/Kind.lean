/-!
# Kinds of plan nodes

Six kinds produce rows (table sources) and six produce a value (scalars).
The category of a kind decides where a node of that kind may stand.
-/

namespace QueryPlan

/-- What a node produces: rows or a single value. -/
inductive Category where
  | source
  | scalar
  deriving DecidableEq

/-- The name of a category in messages. -/
def Category.name : Category → String
  | .source => "表源"
  | .scalar => "标量表达式"

inductive Kind where
  | table
  | crossJoin
  | crossApply
  | outerApply
  | innerJoin
  | leftJoin
  | column
  | constant
  | parameter
  | binary
  | unary
  | call
  deriving DecidableEq

namespace Kind

/-- Every kind, in the order used for comparison. -/
def all : List Kind :=
  [table, crossJoin, crossApply, outerApply, innerJoin, leftJoin,
    column, constant, parameter, binary, unary, call]

/-- The place of a kind in `all`. -/
def rank : Kind → Nat
  | table => 0
  | crossJoin => 1
  | crossApply => 2
  | outerApply => 3
  | innerJoin => 4
  | leftJoin => 5
  | column => 6
  | constant => 7
  | parameter => 8
  | binary => 9
  | unary => 10
  | call => 11

def name : Kind → String
  | table => "Table"
  | crossJoin => "CrossJoin"
  | crossApply => "CrossApply"
  | outerApply => "OuterApply"
  | innerJoin => "InnerJoin"
  | leftJoin => "LeftJoin"
  | column => "Column"
  | constant => "Constant"
  | parameter => "Parameter"
  | binary => "Binary"
  | unary => "Unary"
  | call => "Function"

def ofName? (text : String) : Option Kind :=
  all.find? (·.name == text)

def category : Kind → Category
  | table | crossJoin | crossApply | outerApply | innerJoin | leftJoin => .source
  | column | constant | parameter | binary | unary | call => .scalar

def isSource (kind : Kind) : Bool :=
  kind.category == .source

def isScalar (kind : Kind) : Bool :=
  kind.category == .scalar

def isJoin (kind : Kind) : Bool :=
  kind.isSource && kind != table

/-- Whether nodes of this kind join on a predicate. -/
def isPredicateJoin : Kind → Bool
  | innerJoin | leftJoin => true
  | _ => false

theorem ofName?_name (a : Kind) : ofName? a.name = some a := by
  cases a <;> decide

end Kind

end QueryPlan
