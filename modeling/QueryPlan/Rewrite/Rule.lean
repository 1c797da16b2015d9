import QueryPlan.Node.Transform

/-!
# Rewrite rules

A rule looks at one node, whose children are rewritten already, and answers a
new node or leaves it.
-/

namespace QueryPlan

variable [ForeignTypes]

structure Rule where
  name : String
  apply : Node → Build Outcome

end QueryPlan
