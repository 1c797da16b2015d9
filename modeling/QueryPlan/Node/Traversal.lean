import QueryPlan.Node.Basic
import QueryPlan.Node.Store

/-!
# Reading traversals

Two ways through a plan that leave it as it is.  `apply` gives each node to an
operation before the nodes below it.  `visit` gives each node to a visitor twice,
before and after the nodes below it.  What the operation answers decides how the
traversal goes on.
-/

namespace QueryPlan

variable [ForeignTypes]

/-- How a traversal goes on after a node. -/
inductive Recursion where
  /-- With the nodes below it. -/
  | proceed
  /-- Past the nodes below it. -/
  | skip
  /-- Not at all. -/
  | stop
  deriving DecidableEq

structure Visitor (σ : Type) where
  before : Node → Attempt σ Recursion
  after : Node → Attempt σ Recursion

namespace Node

mutual

def apply {σ : Type} (op : Node → Attempt σ Recursion) (node : Node) :
    Attempt σ Recursion :=
  match node with
  | ⟨_, _, _, _, children⟩ => do
      match ← op node with
      | .proceed => applyAll op children
      | .skip => return .proceed
      | .stop => return .stop

/-- A child that answers `skip` ends the traversal of its siblings. -/
def applyAll {σ : Type} (op : Node → Attempt σ Recursion) :
    List Node → Attempt σ Recursion
  | [] => return .proceed
  | node :: rest => do
      match ← apply op node with
      | .proceed => applyAll op rest
      | .skip => return .proceed
      | .stop => return .stop

end

mutual

/-- The answer after the last node is handed on as it is. -/
def visit {σ : Type} (visitor : Visitor σ) (node : Node) :
    Attempt σ Recursion :=
  match node with
  | ⟨_, _, _, _, children⟩ => do
      match ← visitor.before node with
      | .proceed =>
          match ← visitAll visitor children with
          | .proceed => visitor.after node
          | .skip => return .proceed
          | .stop => return .stop
      | .skip => return .proceed
      | .stop => return .stop

def visitAll {σ : Type} (visitor : Visitor σ) :
    List Node → Attempt σ Recursion
  | [] => return .proceed
  | node :: rest => do
      match ← visit visitor node with
      | .proceed => visitAll visitor rest
      | .skip => return .proceed
      | .stop => return .stop

end

end Node

end QueryPlan
