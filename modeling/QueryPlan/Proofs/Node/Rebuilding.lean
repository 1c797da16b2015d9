import QueryPlan.Node.Transform
import QueryPlan.Proofs.Attempt
import QueryPlan.Proofs.Node.Parts
import QueryPlan.Rewrite.Rewriter

/-!
# One way of rebuilding

Transforming from the leaves up and rewriting both visit the children of a node,
rebuild the node over the answers and then look at the node itself.  Their own
recursions over lists of children are visits.
-/

namespace QueryPlan

variable [ForeignTypes]

theorem Node.areAll_self (nodes : List Node) : areAll nodes nodes = true := by
  induction nodes with
  | nil => rfl
  | cons node rest ih => simp [areAll, is, ih]

theorem Node.visitFrom_congr {σ : Type} {change other : Node → Work σ Node}
    (label : Label) (place : Nat) {children : List Node}
    (hchange : ∀ child ∈ children, change child = other child) :
    visitFrom change label place children = visitFrom other label place children := by
  induction children generalizing place with
  | nil => rfl
  | cons child rest ih =>
      obtain ⟨hchild, hrest⟩ := List.forall_mem_cons.mp hchange
      rw [visitFrom, visitFrom, hchild, ih (place + 1) hrest]

/-- A visit follows another where what it makes of each child follows what the other does. -/
theorem Node.follows_visitFrom {σ υ : Type} {related : Store σ → Store υ → Prop}
    {read : Node → Node}
    (hexpect : ∀ (node : Node) (parent : Kind) (category : Category),
      (read node).expect parent category = (node.expect parent category).map read)
    {change : Node → Work σ Node} {change' : Node → Work υ Node} (label : Label) (place : Nat)
    {children : List Node}
    (hchange : ∀ child ∈ children,
      Follows related read (change child) (change' (read child))) :
    Follows related (List.map read) (visitFrom change label place children)
      (visitFrom change' label place (children.map read)) := by
  induction children generalizing place with
  | nil => exact Follows.pure
  | cons child rest ih =>
      obtain ⟨hchild, hrest⟩ := List.forall_mem_cons.mp hchange
      refine hchild.bind fun changed => ?_
      have hcheck := hexpect changed label.kind (label.slotCategory place)
      refine (Follows.ofExcept hcheck).bind fun _ => ?_
      exact (ih (place + 1) hrest).bind fun _ => Follows.pure

theorem Node.transformUpAll_eq_visitFrom {σ : Type} (op : Node → Work σ Outcome)
    (label : Label) (place : Nat) (children : List Node) :
    transformUpAll op label place children =
      visitFrom (transformUp op) label place children := by
  induction children generalizing place with
  | nil => rfl
  | cons child rest ih => simp only [transformUpAll, visitFrom, ih]

theorem Node.transformUp_eq {σ : Type} (op : Node → Work σ Outcome) (node : Node) :
    transformUp op node =
      visitChildren (transformUp op) node >>= fun rebuilt => do
        return (← op rebuilt).node := by
  cases node with
  | mk handle label type annotations children =>
      simp only [transformUp, visitChildren, transformUpAll_eq_visitFrom, bind_assoc]

namespace Rewriter

theorem rewriteAll_eq_visitFrom (rules : List Rule) (label : Label) (place : Nat)
    (children : List Node) :
    rewriteAll rules label place children =
      Node.visitFrom (rewriteNode rules) label place children := by
  induction children generalizing place with
  | nil => rfl
  | cons child rest ih => simp only [rewriteAll, Node.visitFrom, ih]

theorem rewriteNode_eq (rules : List Rule) (node : Node) :
    rewriteNode rules node =
      Node.visitChildren (rewriteNode rules) node >>= applyRules rules := by
  cases node with
  | mk handle label type annotations children =>
      simp only [rewriteNode, Node.visitChildren, rewriteAll_eq_visitFrom, bind_assoc]

theorem rewrite_eq (rewriter : Rewriter) (node : Node) :
    rewriter.rewrite node = outcome node <$> rewriteNode rewriter.rules node := by
  rw [map_eq_pure_bind]
  rfl

end Rewriter

end QueryPlan
