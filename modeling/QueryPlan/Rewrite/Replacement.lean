import QueryPlan.Node.Equality
import QueryPlan.Rewrite.Rule

/-!
# Replacement

Every node that is the same as a target becomes one given node.  The given node
itself is left, so that replacing a node by an equal one comes to an end.
-/

namespace QueryPlan

variable [ForeignTypes]

structure Replacement where
  target : Node
  replacement : Node

namespace Replacement

def apply (rule : Replacement) (node : Node) : Build Outcome :=
  if node.same rule.target && !node.is rule.replacement then
    pure (.changed rule.replacement)
  else pure (.unchanged node)

def rule (replacement : Replacement) : Rule :=
  ⟨"ReplaceNodeRule", replacement.apply⟩

end Replacement

end QueryPlan
