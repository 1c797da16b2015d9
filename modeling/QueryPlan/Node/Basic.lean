import QueryPlan.Annotations.Basic
import QueryPlan.Kind
import QueryPlan.Operator
import QueryPlan.Signature

/-!
# Plan nodes

A plan is a tree of labelled nodes.  The label holds everything that belongs to
a node alone: its kind and its own fields.  What a label asks of its children
is told by `arity` and `slotCategory`, and the type of an expression by
`typeOf`, so that all kinds of nodes are built, walked and compared by the same
definitions.

A node also carries its handle and its type.  The type is that of `typeOf`,
kept so that it need not be computed again.
-/

namespace QueryPlan

variable [ForeignTypes]

/-- Joins without a predicate. -/
inductive JoinForm where
  | cross
  | crossApply
  | outerApply
  deriving DecidableEq

/-- Joins on a predicate. -/
inductive PredicateJoinForm where
  | inner
  | left
  deriving DecidableEq

inductive Label where
  | table (name : String) (schema aliasName : Option String)
  | join (form : JoinForm)
  | joinOn (form : PredicateJoinForm)
  | column (qualifier : Option String) (name : String) (type : DataType)
  | constant (value : Literal) (type : DataType)
  | parameter (name : String) (type : DataType)
  | binary (op : BinaryOperator)
  | unary (op : UnaryOperator)
  | call (signature : Signature) (type : DataType)
  deriving DecidableEq

namespace Label

def kind : Label → Kind
  | table .. => .table
  | join .cross => .crossJoin
  | join .crossApply => .crossApply
  | join .outerApply => .outerApply
  | joinOn .inner => .innerJoin
  | joinOn .left => .leftJoin
  | column .. => .column
  | constant .. => .constant
  | parameter .. => .parameter
  | binary _ => .binary
  | unary _ => .unary
  | call .. => .call

def category (label : Label) : Category :=
  label.kind.category

/-- How many children a node with this label has. -/
def arity : Label → Nat
  | table .. | column .. | constant .. | parameter .. => 0
  | join _ | unary _ => 1
  | joinOn _ | binary _ => 2
  | call signature _ => signature.arity

/-- The category of the child at a place: a join begins with the joined table,
all other children are expressions. -/
def slotCategory : Label → Nat → Category
  | join _, 0 | joinOn _, 0 => .source
  | _, _ => .scalar

/-- The type of a node from the types of its children.  Table sources have
none, which counts as unknown. -/
def typeOf : Label → List DataType → DataType
  | column _ _ type, _ | constant _ type, _ | parameter _ type, _
  | call _ type, _ => type
  | binary op, [left, right] => op.resultType left right
  | unary op, [operand] => op.resultType operand
  | _, _ => .unknown

def isCall : Label → Bool
  | call .. => true
  | _ => false

/-- Equality of labels, in which literals count by their values. -/
def same : Label → Label → Bool
  | constant value type, constant value' type' =>
      value.same value' && type = type'
  | label, label' => label = label'

end Label

structure Node where
  handle : Handle
  label : Label
  type : DataType
  annotations : Annotations
  children : List Node

namespace Node

def kind (node : Node) : Kind :=
  node.label.kind

def category (node : Node) : Category :=
  node.label.category

/-- The type of an expression; table sources have none. -/
def dataType? (node : Node) : Option DataType :=
  if node.category = .scalar then some node.type else none

/-- Whether two nodes are one and the same. -/
def is (a b : Node) : Bool :=
  a.handle = b.handle

/-- Whether two lists hold the same nodes. -/
def areAll : List Node → List Node → Bool
  | [], [] => true
  | a :: as, b :: bs => a.is b && areAll as bs
  | _, _ => false

/-- The name by which a table is known in a plan. -/
def alias? (node : Node) : Option String :=
  match node.label with
  | .table _ _ aliasName => aliasName
  | _ => none

/-- The table that a join joins. -/
def joinedTable? (node : Node) : Option Node :=
  if node.kind.isJoin then node.children[0]? else none

/-- The predicate on which a join joins. -/
def predicate? (node : Node) : Option Node :=
  if node.kind.isPredicateJoin then node.children[1]? else none

mutual

/-- A node followed by everything below it, parents before their children and
children from first to last. -/
def preorder (node : Node) : List Node :=
  match node with
  | ⟨_, _, _, _, children⟩ => node :: preorderAll children

def preorderAll : List Node → List Node
  | [] => []
  | node :: rest => preorder node ++ preorderAll rest

end

end Node

end QueryPlan
