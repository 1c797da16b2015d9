import QueryPlan.Node.Basic

/-!
# Equality of plans

Two plans are the same when they have the same labels, annotations and children
throughout, whatever their handles.  Handles are looked at first: nodes with one
handle are one node, and need not be compared.  The kept type is not compared,
because it follows from the rest.
-/

namespace QueryPlan

variable [ForeignTypes]

namespace Node

mutual

def same (a b : Node) : Bool :=
  match a, b with
  | ⟨handle, label, _, annotations, children⟩,
    ⟨handle', label', _, annotations', children'⟩ =>
      handle = handle' ||
        (label.same label' && sameAll children children' &&
          annotations.same annotations')

def sameAll (as bs : List Node) : Bool :=
  match as, bs with
  | [], [] => true
  | a :: as, b :: bs => same a b && sameAll as bs
  | _, _ => false

end

end Node

end QueryPlan
