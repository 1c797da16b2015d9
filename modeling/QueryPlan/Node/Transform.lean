import QueryPlan.Node.Build

/-!
# Transformations

Rebuilding a whole plan by an operation on single nodes, from the leaves up or
from the root down.  Parts that the operation leaves alone keep their handles.

Going down, the operation may answer ever new nodes to go down into, so the
depth is limited.
-/

namespace QueryPlan

variable [ForeignTypes]

/-- What an operation makes of a node. -/
inductive Outcome where
  | changed (node : Node)
  | unchanged (node : Node)

namespace Outcome

def node : Outcome → Node
  | changed node => node
  | unchanged node => node

def isChanged : Outcome → Bool
  | changed _ => true
  | unchanged _ => false

end Outcome

namespace Node

mutual

/-- Transforms the children and then the node over them. -/
def transformUp {σ : Type} (op : Node → Work σ Outcome) (node : Node) :
    Work σ Node :=
  match node with
  | ⟨_, label, _, _, children⟩ => do
      let children ← transformUpAll op label 0 children
      let rebuilt ← node.update children
      return (← op rebuilt).node

def transformUpAll {σ : Type} (op : Node → Work σ Outcome) (label : Label)
    (place : Nat) : List Node → Work σ (List Node)
  | [] => pure []
  | child :: rest => do
      let changed ← transformUp op child
      let _ ← Attempt.ofExcept (changed.expect label.kind (label.slotCategory place))
      return changed :: (← transformUpAll op label (place + 1) rest)

end

/-- Transforms the node and then its new children, at most `depth` levels. -/
def transformDown {σ : Type} (op : Node → Work σ Outcome) :
    Nat → Node → Work σ Node
  | 0, _ => throw .depthExhausted
  | depth + 1, node => do
      let outcome ← op node
      visitChildren (transformDown op depth) outcome.node

end Node

end QueryPlan
