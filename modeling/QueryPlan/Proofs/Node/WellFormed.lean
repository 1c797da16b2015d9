import QueryPlan.Node.Build
import QueryPlan.Proofs.Annotations.WellFormed
import QueryPlan.Proofs.Node.Parts

/-!
# Well-formed nodes

What holds of a single node that was built by the rules: its type follows from
the types of its children, a predicate may be a truth value, the children are
as many as the label asks for and of the categories it asks for, and the
annotations are in order.

Building checks all of this except the type, which it computes; the lemmas on
the checks say what exactly each of them decides.
-/

namespace QueryPlan

theorem Label.exists_joinOn {label : Label} (hjoin : label.kind.isPredicateJoin) :
    ∃ form, label = .joinOn form := by
  cases label with
  | joinOn form => exact ⟨form, rfl⟩
  | join form => cases form <;> cases hjoin
  | _ => cases hjoin

variable [ForeignTypes]

structure Node.WellFormed (node : Node) : Prop where
  /-- The kept type of an operation is the result type of its operands' types,
  and the kept type of any other expression is the one that its label has. -/
  type_eq : node.type = node.label.typeOf (node.children.map (·.type))
  predicate : ∀ predicate, node.predicate? = some predicate →
    predicate.type.isBooleanCompatible
  arity : node.children.length = node.label.arity
  categories : ∀ (place : Nat) (child : Node), node.children[place]? = some child →
    child.category = node.label.slotCategory place
  annotations : node.annotations.WellFormed

/-- Every part of a whole node is well formed. -/
def Node.Whole (node : Node) : Prop :=
  ∀ part ∈ node.preorder, part.WellFormed

theorem Node.whole_iff {node : Node} :
    node.Whole ↔ node.WellFormed ∧ ∀ child ∈ node.children, child.Whole :=
  forall_mem_preorder_iff

/-! ## The checks -/

namespace Node

theorem expect_eq_ok_iff {node result : Node} {parent : Kind} {category : Category} :
    node.expect parent category = .ok result ↔
      node.category = category ∧ result = node := by
  unfold expect
  split <;> simp_all [eq_comm]

theorem expect_eq_error {node : Node} {parent : Kind} {category : Category}
    (hcategory : node.category ≠ category) :
    node.expect parent category = .error (.wrongCategory parent category node.kind) :=
  if_neg hcategory

end Node

namespace Label

section Fields

variable (label : Label) (handle : Handle) (annotations : Annotations)
  (children : List Node)

@[simp] theorem node_handle :
    (label.node handle annotations children).handle = handle := rfl

@[simp] theorem node_label :
    (label.node handle annotations children).label = label := rfl

@[simp] theorem node_type :
    (label.node handle annotations children).type =
      label.typeOf (children.map (·.type)) := rfl

@[simp] theorem node_annotations :
    (label.node handle annotations children).annotations = annotations := rfl

@[simp] theorem node_children :
    (label.node handle annotations children).children = children := rfl

end Fields

theorem checkCategories_cons {label : Label} {place : Nat} {first : Node}
    (hfirst : first.category = label.slotCategory place) (rest : List Node) :
    label.checkCategories place (first :: rest) = label.checkCategories (place + 1) rest := by
  rw [checkCategories, Node.expect_eq_ok_iff.mpr ⟨hfirst, rfl⟩]
  rfl

theorem checkCategories_cons_eq_ok_iff (label : Label) (place : Nat) (first : Node)
    (rest : List Node) :
    label.checkCategories place (first :: rest) = .ok () ↔
      first.category = label.slotCategory place ∧
        label.checkCategories (place + 1) rest = .ok () := by
  simp only [checkCategories, Node.expect, bind, Except.bind]
  by_cases hfirst : first.category = label.slotCategory place <;> simp [hfirst]

theorem checkCategories_eq_ok_iff (label : Label) (place : Nat)
    (children : List Node) :
    label.checkCategories place children = .ok () ↔
      ∀ (i : Nat) (child : Node), children[i]? = some child →
        child.category = label.slotCategory (place + i) := by
  induction children generalizing place with
  | nil => simp [checkCategories]
  | cons first rest ih =>
      rw [checkCategories_cons_eq_ok_iff, ih]
      constructor
      · rintro ⟨hfirst, hrest⟩ i child hchild
        cases i with
        | zero =>
            obtain rfl : first = child := by simpa using hchild
            exact hfirst
        | succ i =>
            have hcategory := hrest i child (by simpa using hchild)
            rwa [Nat.add_assoc, Nat.add_comm 1 i] at hcategory
      · intro hall
        refine ⟨hall 0 first (by simp), ?_⟩
        intro i child hchild
        have hcategory := hall (i + 1) child (by simpa using hchild)
        rwa [Nat.add_comm i 1, ← Nat.add_assoc] at hcategory

theorem checkCount_eq_ok_iff (label : Label) (children : List Node) :
    label.checkCount children = .ok () ↔ children.length = label.arity := by
  unfold checkCount
  split <;> simp_all

/-- The check of a predicate says nothing about a node without one. -/
theorem checkPredicate_eq_ok_iff (label : Label) (children : List Node)
    (hcount : children.length = label.arity) (handle : Handle)
    (annotations : Annotations) :
    label.checkPredicate children = .ok () ↔
      ∀ predicate, (label.node handle annotations children).predicate? =
        some predicate → predicate.type.isBooleanCompatible := by
  cases label with
  | joinOn form =>
      obtain ⟨table, predicate, rfl⟩ : ∃ table predicate,
          children = [table, predicate] :=
        List.length_eq_two.mp hcount
      cases form <;>
        by_cases hpredicate : predicate.type.isBooleanCompatible <;>
          simp [checkPredicate, Node.predicate?, Label.node, Node.kind, Label.kind,
            Kind.isPredicateJoin, hpredicate]
  | join form =>
      cases form <;>
        simp [checkPredicate, Node.predicate?, Label.node, Node.kind, Label.kind,
          Kind.isPredicateJoin]
  | _ =>
      simp [checkPredicate, Node.predicate?, Label.node, Node.kind, Label.kind,
        Kind.isPredicateJoin]

/-- The checks that remain once the categories of the children are right. -/
def checkParts (label : Label) (children : List Node) : Except NodeError Unit := do
  label.checkCount children
  label.checkPredicate children

theorem checkParts_eq_ok_iff (label : Label) (children : List Node) :
    label.checkParts children = .ok () ↔
      label.checkCount children = .ok () ∧
        label.checkPredicate children = .ok () := by
  unfold checkParts
  cases label.checkCount children <;> simp [bind, Except.bind]

/-- The checks look at the types of the children, and at nothing else of them. -/
theorem checkParts_map {change : Node → Node} (htype : ∀ node, (change node).type = node.type)
    (label : Label) (children : List Node) :
    label.checkParts (children.map change) = label.checkParts children := by
  have hcount : label.checkCount (children.map change) = label.checkCount children := by
    simp [checkCount]
  have hpredicate : label.checkPredicate (children.map change) =
      label.checkPredicate children := by
    cases label with
    | joinOn form =>
        rcases children with _ | ⟨table, _ | ⟨predicate, _ | ⟨other, rest⟩⟩⟩ <;>
          simp [checkPredicate, htype]
    | _ => rfl
  rw [checkParts, checkParts, hcount, hpredicate]

theorem wellFormed_node {label : Label} {handle : Handle}
    {annotations : Annotations} {children : List Node}
    (hcategories : label.checkCategories 0 children = .ok ())
    (hparts : label.checkParts children = .ok ())
    (hannotations : annotations.WellFormed) :
    (label.node handle annotations children).WellFormed := by
  obtain ⟨hcount, hpredicate⟩ := (label.checkParts_eq_ok_iff children).mp hparts
  have harity := (label.checkCount_eq_ok_iff children).mp hcount
  constructor
  · rfl
  · exact (label.checkPredicate_eq_ok_iff children harity handle annotations).mp
      hpredicate
  · exact harity
  · simpa using (label.checkCategories_eq_ok_iff 0 children).mp hcategories
  · exact hannotations

end Label

namespace Node

theorem WellFormed.checkCategories {node : Node} (hnode : node.WellFormed) :
    node.label.checkCategories 0 node.children = .ok () :=
  (node.label.checkCategories_eq_ok_iff 0 node.children).mpr
    (by simpa using hnode.categories)

theorem WellFormed.checkParts {node : Node} (hnode : node.WellFormed) :
    node.label.checkParts node.children = .ok () := by
  refine (node.label.checkParts_eq_ok_iff node.children).mpr ⟨?_, ?_⟩
  · exact (node.label.checkCount_eq_ok_iff node.children).mpr hnode.arity
  · exact (node.label.checkPredicate_eq_ok_iff node.children hnode.arity
      node.handle node.annotations).mpr hnode.predicate

/-- Composing draws one handle when the checks pass and none when they fail. -/
theorem compose_eq (label : Label) (annotations : Annotations)
    (children : List Node) (next : Handle) :
    compose label annotations children next =
      match label.checkParts children with
      | .ok _ => .ok (label.node next annotations children) (next + 1)
      | .error fault => .error fault next := by
  unfold compose Label.checkParts
  cases hcount : label.checkCount children with
  | error fault => rfl
  | ok =>
      cases hpredicate : label.checkPredicate children with
      | error fault => rfl
      | ok => rfl

end Node

end QueryPlan
