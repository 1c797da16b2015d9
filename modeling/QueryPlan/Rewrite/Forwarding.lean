import QueryPlan.Rewrite.NumericFunctions
import QueryPlan.Rewrite.Rule

/-!
# Forwarding of calls

A call of a function that a table forwards becomes a call of the function at
the end of the chain.  Arguments, return type and annotations stay.
-/

namespace QueryPlan.ForwardingTable

variable [ForeignTypes]

def apply (table : ForwardingTable) (node : Node) : Build Outcome :=
  match node.label with
  | .call signature _ =>
      match table.resolve? signature with
      | some target => return .changed (← node.withSignature target)
      | none => pure (.unchanged node)
  | _ => pure (.unchanged node)

def rule (table : ForwardingTable) : Rule :=
  ⟨"CallForwardingRule", table.apply⟩

end QueryPlan.ForwardingTable
