import Mathlib.Data.List.Forall2
import QueryPlan.Node.Basic

/-!
# The parts of a plan

A part of a plan is a node that its preorder lists: the plan itself or a part
of one of its children.  Proofs about whole plans go by induction on the
children of a node.
-/

namespace QueryPlan

/-- Rows that look alike part by part. -/
theorem map_eq_map_iff_forall₂ {α β : Type} {f : α → β} {as bs : List α} :
    as.map f = bs.map f ↔ List.Forall₂ (fun a b => f a = f b) as bs := by
  rw [← List.forall₂_eq_eq_eq, List.forall₂_map_left_iff, List.forall₂_map_right_iff]

variable [ForeignTypes]

namespace Node

/-- Induction on plans: what passes from the children of a node to the node
holds of every plan. -/
theorem inductionOn {motive : Node → Prop} (node : Node)
    (step : ∀ node : Node, (∀ child ∈ node.children, motive child) → motive node) :
    motive node := by
  refine @Node.rec _ motive
    (fun children => ∀ child ∈ children, motive child)
    ?_ ?_ ?_ node
  · intro handle label type annotations children hchildren
    exact step ⟨handle, label, type, annotations, children⟩ hchildren
  · intro child hchild
    simp at hchild
  · intro first rest hfirst hrest child hchild
    rcases List.mem_cons.mp hchild with rfl | hchild
    · exact hfirst
    · exact hrest child hchild

theorem preorderAll_eq_flatMap (nodes : List Node) :
    preorderAll nodes = nodes.flatMap preorder := by
  induction nodes with
  | nil => rfl
  | cons node rest ih => rw [preorderAll, ih, List.flatMap_cons]

theorem preorder_eq (node : Node) :
    node.preorder = node :: node.children.flatMap preorder := by
  cases node with
  | mk handle label type annotations children =>
      rw [preorder, preorderAll_eq_flatMap]

theorem mem_preorder_iff {part node : Node} :
    part ∈ node.preorder ↔
      part = node ∨ ∃ child ∈ node.children, part ∈ child.preorder := by
  rw [preorder_eq, List.mem_cons, List.mem_flatMap]

theorem mem_preorder_self (node : Node) : node ∈ node.preorder :=
  mem_preorder_iff.mpr (.inl rfl)

theorem mem_preorder_of_mem_children {part child node : Node}
    (hchild : child ∈ node.children) (hpart : part ∈ child.preorder) :
    part ∈ node.preorder :=
  mem_preorder_iff.mpr (.inr ⟨child, hchild, hpart⟩)

theorem forall_mem_preorder_iff {p : Node → Prop} {node : Node} :
    (∀ part ∈ node.preorder, p part) ↔
      p node ∧ ∀ child ∈ node.children, ∀ part ∈ child.preorder, p part := by
  constructor
  · intro hparts
    refine ⟨hparts node node.mem_preorder_self, ?_⟩
    intro child hchild part hpart
    exact hparts part (mem_preorder_of_mem_children hchild hpart)
  · rintro ⟨hnode, hchildren⟩ part hpart
    rcases mem_preorder_iff.mp hpart with rfl | ⟨child, hchild, hpart⟩
    · exact hnode
    · exact hchildren child hchild part hpart

theorem mem_preorder_trans {part middle node : Node}
    (hpart : part ∈ middle.preorder) (hmiddle : middle ∈ node.preorder) :
    part ∈ node.preorder := by
  induction node using Node.inductionOn with
  | step node ih =>
      rcases mem_preorder_iff.mp hmiddle with rfl | ⟨child, hchild, hmiddle⟩
      · exact hpart
      · exact mem_preorder_of_mem_children hchild (ih child hchild hmiddle)

theorem length_preorder_lt_of_mem_children {child node : Node}
    (hchild : child ∈ node.children) :
    child.preorder.length < node.preorder.length := by
  have hlength := (List.sublist_flatten_of_mem
    (List.mem_map_of_mem (f := preorder) hchild)).length_le
  rw [← List.flatMap_def] at hlength
  rw [node.preorder_eq, List.length_cons]
  omega

theorem length_preorder_le_of_mem_preorder {part node : Node}
    (hpart : part ∈ node.preorder) : part.preorder.length ≤ node.preorder.length := by
  induction node using Node.inductionOn with
  | step node ih =>
      rcases mem_preorder_iff.mp hpart with rfl | ⟨child, hchild, hpart⟩
      · exact Nat.le_refl _
      · exact Nat.le_trans (ih child hchild hpart)
          (Nat.le_of_lt (length_preorder_lt_of_mem_children hchild))

end Node

end QueryPlan
