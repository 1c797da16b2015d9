/-!
# Handles

Plans share their parts, and two parts with the same content may still be two
parts.  A handle is the identity of one node or of one annotation storage; it
says nothing about content.  New handles are counted up, so that each is given
out once.
-/

namespace QueryPlan

abbrev Handle := Nat

end QueryPlan
