import QueryPlan.Node.Basic

/-!
# Walks

A walk reads a plan without failing and without handles being made.  A walker has
one method for each shape of node, and two more that are called on arrival, one at
any table source and one at any expression.

A method decides itself how the walk goes on: it gets the walks of the children,
or on arrival that of the inside of the node, and makes those it likes.  What a
walker does not say is done by default, which is to walk on through all children,
from first to last.
-/

namespace QueryPlan

variable [ForeignTypes]

structure Walker (σ : Type) where
  table : Node → σ → σ := fun _ state => state
  join : JoinForm → Node → (σ → σ) → σ → σ := fun _ _ table state => table state
  joinOn : PredicateJoinForm → Node → (σ → σ) → (σ → σ) → σ → σ :=
    fun _ _ table predicate state => predicate (table state)
  column : Node → σ → σ := fun _ state => state
  constant : Node → σ → σ := fun _ state => state
  parameter : Node → σ → σ := fun _ state => state
  binary : Node → (σ → σ) → (σ → σ) → σ → σ :=
    fun _ left right state => right (left state)
  unary : Node → (σ → σ) → σ → σ := fun _ operand state => operand state
  call : Node → List (σ → σ) → σ → σ :=
    fun _ arguments state => arguments.foldl (fun state argument => argument state) state
  /-- Called on arrival at a table source. -/
  source : Node → (σ → σ) → σ → σ := fun _ inside state => inside state
  /-- Called on arrival at an expression. -/
  scalar : Node → (σ → σ) → σ → σ := fun _ inside state => inside state

namespace Walker

variable {σ : Type}

def arrive (walker : Walker σ) (node : Node) (inside : σ → σ) : σ → σ :=
  match node.category with
  | .source => walker.source node inside
  | .scalar => walker.scalar node inside

/-- Calls the method for the shape of a node, given the walks of its children.  A
node with another number of children than its label asks for is passed. -/
def enter (walker : Walker σ) (node : Node) (children : List (σ → σ)) : σ → σ :=
  match node.label, children with
  | .table .., [] => walker.table node
  | .join form, [table] => walker.join form node table
  | .joinOn form, [table, predicate] => walker.joinOn form node table predicate
  | .column .., [] => walker.column node
  | .constant .., [] => walker.constant node
  | .parameter .., [] => walker.parameter node
  | .binary _, [left, right] => walker.binary node left right
  | .unary _, [operand] => walker.unary node operand
  | .call .., arguments => walker.call node arguments
  | _, _ => id

end Walker

namespace Node

mutual

def walk {σ : Type} (walker : Walker σ) (node : Node) : σ → σ :=
  match node with
  | ⟨_, _, _, _, children⟩ =>
      walker.arrive node (walker.enter node (walkAll walker children))

/-- The walks of some nodes, each on its own. -/
def walkAll {σ : Type} (walker : Walker σ) : List Node → List (σ → σ)
  | [] => []
  | node :: rest => walk walker node :: walkAll walker rest

end

end Node

end QueryPlan
