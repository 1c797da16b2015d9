import Mathlib.Data.List.Forall2
import QueryPlan.Proofs.Node.WellFormed

/-!
# Updates of nodes

An update of a node makes its checks, and then keeps the node or makes a new one with the same
fields over the other children.  The checks do not depend on the handle that is drawn.

Where nodes are told by their handles, so that children with the handles of the old ones are
the old ones, the checks let a node pass that is kept.
-/

namespace QueryPlan

variable [ForeignTypes]

namespace Label

/-- What an update checks before it looks whether the children are other ones. -/
def checkGiven (label : Label) (children : List Node) : Except NodeError Unit := do
  unless label.isCall do
    label.checkCount children
  label.checkCategories 0 children

/-- The checks of an update in the order in which they are made. -/
def checkUpdate (label : Label) (children : List Node) : Except NodeError Unit := do
  label.checkGiven children
  label.checkParts children

theorem checkGiven_of_checkCount {label : Label} {children : List Node}
    (hcount : label.checkCount children = .ok ()) :
    label.checkGiven children = label.checkCategories 0 children := by
  unfold checkGiven
  rw [hcount]
  cases label.isCall <;> rfl

theorem checkCategories_of_checkGiven {label : Label} {children : List Node}
    (hgiven : label.checkGiven children = .ok ()) :
    label.checkCategories 0 children = .ok () := by
  unfold checkGiven at hgiven
  cases hcall : label.isCall <;> cases hcount : label.checkCount children <;>
    simp_all [bind, Except.bind]

theorem checkUpdate_eq_ok_iff {label : Label} {children : List Node} :
    label.checkUpdate children = .ok () ↔
      label.checkCategories 0 children = .ok () ∧ label.checkParts children = .ok () := by
  unfold checkUpdate checkGiven checkParts
  cases label.isCall <;> cases label.checkCount children <;>
    cases label.checkCategories 0 children <;> simp [bind, Except.bind]

end Label

namespace Node

/-- The children are as many as those of the node, of the same categories, and with a
predicate that may be a truth value in the place of one. -/
structure Accepts (node : Node) (children : List Node) : Prop where
  categories : List.Forall₂ (fun old child => child.category = old.category)
    node.children children
  predicate : node.kind.isPredicateJoin → ∀ predicate, children[1]? = some predicate →
    predicate.type.isBooleanCompatible

/-- What an update answers that may draw a handle. -/
def updated (node : Node) (children : List Node) (handle : Handle) : Node :=
  if areAll children node.children then node
  else node.label.node handle node.annotations children

theorem areAll_iff_handles (nodes others : List Node) :
    areAll nodes others = true ↔ nodes.map (·.handle) = others.map (·.handle) := by
  induction nodes generalizing others with
  | nil => cases others <;> simp [areAll]
  | cons node rest ih => cases others <;> simp [areAll, is, ih]

variable {node : Node} {children : List Node}

/-! ## What passes the checks -/

/-- The categories that a label asks for are those of the children that the node has. -/
theorem WellFormed.checkCategories_iff (hnode : node.WellFormed) {olds : List Node}
    (holds : olds <+: node.children) (hcount : children.length = olds.length) :
    node.label.checkCategories 0 children = .ok () ↔
      List.Forall₂ (fun old child => child.category = old.category) olds children := by
  have hslot (place : Nat) (hold : place < olds.length) :
      olds[place].category = node.label.slotCategory place := by
    refine hnode.categories place _ ?_
    rw [List.getElem?_eq_getElem (hold.trans_le holds.length_le), holds.getElem hold]
  rw [Label.checkCategories_eq_ok_iff, List.forall₂_iff_get]
  constructor
  · refine fun hcategories => ⟨hcount.symm, fun place hold hnew => ?_⟩
    have hcategory := hcategories place _ (List.getElem?_eq_getElem hnew)
    rw [Nat.zero_add, ← hslot place hold] at hcategory
    exact hcategory
  · rintro ⟨-, hcategories⟩ place child hchild
    obtain ⟨hnew, rfl⟩ := List.getElem?_eq_some_iff.mp hchild
    have hold : place < olds.length := hcount ▸ hnew
    rw [Nat.zero_add, ← hslot place hold]
    exact hcategories place hold hnew

theorem checkPredicate_iff (hcount : children.length = node.label.arity) :
    node.label.checkPredicate children = .ok () ↔
      (node.kind.isPredicateJoin → ∀ predicate, children[1]? = some predicate →
        predicate.type.isBooleanCompatible) := by
  rw [Label.checkPredicate_eq_ok_iff _ _ hcount node.handle node.annotations, predicate?]
  change _ ↔ (node.label.kind.isPredicateJoin → _)
  by_cases hjoin : node.label.kind.isPredicateJoin <;> simp [kind, hjoin]

/-- An update passes the checks exactly if the node accepts the children. -/
theorem WellFormed.checkUpdate_iff (hnode : node.WellFormed) :
    node.label.checkUpdate children = .ok () ↔ node.Accepts children := by
  rw [Label.checkUpdate_eq_ok_iff, Label.checkParts_eq_ok_iff, Label.checkCount_eq_ok_iff]
  constructor
  · rintro ⟨hcategories, hcount, hpredicate⟩
    have hlength := hcount.trans hnode.arity.symm
    exact ⟨(hnode.checkCategories_iff (List.prefix_refl _) hlength).mp hcategories,
      (checkPredicate_iff hcount).mp hpredicate⟩
  · rintro ⟨hcategories, hpredicate⟩
    have hlength := hcategories.length_eq.symm
    have hcount := hlength.trans hnode.arity
    exact ⟨(hnode.checkCategories_iff (List.prefix_refl _) hlength).mpr hcategories, hcount,
      (checkPredicate_iff hcount).mpr hpredicate⟩

theorem WellFormed.node_eq (hnode : node.WellFormed) :
    node.label.node node.handle node.annotations node.children = node := by
  rw [Label.node, ← hnode.type_eq]
  cases node
  rfl

/-! ## What an update answers -/

theorem updateChildren_eq_bind (node : Node) (children : List Node) :
    node.updateChildren children = (do
      Attempt.ofExcept (node.label.checkGiven children)
      node.update children) := by
  unfold updateChildren Label.checkGiven
  cases node.label.isCall with
  | true => rfl
  | false =>
      cases node.label.checkCount children with
      | error fault => rfl
      | ok => rfl

section Updating

variable (hnode : node.WellFormed)
  (hkept : areAll children node.children = true → children = node.children)
include hnode hkept

theorem update_eq (next : Handle) :
    node.update children next =
      match node.label.checkParts children with
      | .ok _ => .ok (node.updated children next)
          (if areAll children node.children then next else next + 1)
      | .error fault => .error fault next := by
  unfold update updated
  by_cases hare : areAll children node.children
  · rw [if_pos hare, if_pos hare, if_pos hare, hkept hare, hnode.checkParts]
    rfl
  · rw [if_neg hare, if_neg hare, if_neg hare]
    exact compose_eq node.label node.annotations children next

theorem updateChildren_eq (next : Handle) :
    node.updateChildren children next =
      match node.label.checkUpdate children with
      | .ok _ => .ok (node.updated children next)
          (if areAll children node.children then next else next + 1)
      | .error fault => .error fault next := by
  rw [updateChildren_eq_bind, Label.checkUpdate]
  cases node.label.checkGiven children with
  | error fault => rfl
  | ok => exact update_eq hnode hkept next

/-- Only the handle of what an update answers depends on more than the fields of the node and
the children. -/
theorem updated_eq (handle : Handle) :
    node.updated children handle =
      node.label.node (node.updated children handle).handle node.annotations children := by
  unfold updated
  by_cases hare : areAll children node.children
  · rw [if_pos hare, hkept hare, hnode.node_eq]
  · rw [if_neg hare, Label.node_handle]

end Updating

theorem updated_is_iff {handle : Handle} (hhandle : node.handle ≠ handle)
    (children : List Node) :
    (node.updated children handle).is node = true ↔
      children.map (·.handle) = node.children.map (·.handle) := by
  rw [← areAll_iff_handles]
  unfold updated
  by_cases hare : areAll children node.children
  · simp [hare, is]
  · simp [hare, is, hhandle.symm]

/-! ## Predicates of joins -/

theorem WellFormed.exists_of_isPredicateJoin (hnode : node.WellFormed)
    (hjoin : node.kind.isPredicateJoin) :
    ∃ form table predicate, node.label = .joinOn form ∧ node.children = [table, predicate] := by
  obtain ⟨form, hlabel⟩ := Label.exists_joinOn hjoin
  have harity := hnode.arity
  rw [hlabel, Label.arity] at harity
  obtain ⟨table, predicate, hchildren⟩ := List.length_eq_two.mp harity
  exact ⟨form, table, predicate, hlabel, hchildren⟩

theorem WellFormed.predicate?_eq_some_iff (hnode : node.WellFormed) {predicate : Node} :
    node.predicate? = some predicate ↔
      ∃ form table, node.label = .joinOn form ∧ node.children = [table, predicate] := by
  constructor
  · intro hpredicate
    have hjoin : node.kind.isPredicateJoin := by
      by_contra hnot
      simp [predicate?, hnot] at hpredicate
    obtain ⟨form, table, other, hlabel, hchildren⟩ := hnode.exists_of_isPredicateJoin hjoin
    rw [predicate?, if_pos hjoin, hchildren] at hpredicate
    obtain rfl : other = predicate := by simpa using hpredicate
    exact ⟨form, table, hlabel, hchildren⟩
  · rintro ⟨form, table, hlabel, hchildren⟩
    rw [predicate?, kind, hlabel, hchildren]
    cases form <;> rfl

/-- The predicate was checked when the node was made. -/
theorem WellFormed.checkParts_table (hnode : node.WellFormed) {table predicate : Node}
    (hpredicate : node.predicate? = some predicate) :
    node.label.checkParts [table, predicate] = .ok () := by
  obtain ⟨form, old, hlabel, hchildren⟩ := hnode.predicate?_eq_some_iff.mp hpredicate
  have hchecked := hnode.checkParts
  rw [hlabel, hchildren] at hchecked
  rw [hlabel]
  exact hchecked

theorem updateTable_eq_update (hnode : node.WellFormed) {predicate : Node}
    (hpredicate : node.predicate? = some predicate) (table : Node) (next : Handle) :
    node.updateTable table next = node.update [table, predicate] next := by
  obtain ⟨form, old, hlabel, hchildren⟩ := hnode.predicate?_eq_some_iff.mp hpredicate
  have hare : areAll [table, predicate] [old, predicate] = table.is old := by
    simp [areAll, is]
  simp only [updateTable, update, hchildren, hare]
  by_cases his : table.is old
  · rw [if_pos his, if_pos his]
  · rw [if_neg his, if_neg his, compose_eq, hnode.checkParts_table hpredicate]
    rfl

end Node

end QueryPlan
