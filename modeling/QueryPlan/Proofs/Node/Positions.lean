import QueryPlan.Proofs.Node.Parts

/-!
# Positions in a plan

A position is the way from the top of a plan to one of its parts: the place of a
child, then that of a child of this child, and so on.  The same node may stand
at many positions.
-/

namespace QueryPlan

theorem rel_getElem?_of_forall₂ {α β : Type} {r : α → β → Prop} {as : List α}
    {bs : List β} (hrows : List.Forall₂ r as bs) (place : Nat) :
    Option.Rel r as[place]? bs[place]? := by
  induction hrows generalizing place with
  | nil => exact .none
  | cons hfirst _ ih =>
      cases place with
      | zero => exact .some hfirst
      | succ place => simpa using ih place

theorem exists_of_rel_some {α β : Type} {r : α → β → Prop} {a : α} {b? : Option β}
    (hrel : Option.Rel r (some a) b?) : ∃ b, b? = some b ∧ r a b := by
  cases hrel with
  | some hab => exact ⟨_, rfl, hab⟩

variable [ForeignTypes]

namespace Node

/-- The part at a position. -/
def at? : List Nat → Node → Option Node
  | [], node => some node
  | place :: rest, node => node.children[place]?.bind (at? rest)

@[simp] theorem at?_nil (node : Node) : node.at? [] = some node := rfl

theorem at?_cons (place : Nat) (rest : List Nat) (node : Node) :
    node.at? (place :: rest) = node.children[place]?.bind (at? rest) := rfl

theorem at?_cons_eq_some_iff {place : Nat} {rest : List Nat} {node part : Node} :
    node.at? (place :: rest) = some part ↔
      ∃ child, node.children[place]? = some child ∧ child.at? rest = some part :=
  Option.bind_eq_some_iff

/-- The way along one position and then along another from there. -/
theorem at?_append (path rest : List Nat) (node : Node) :
    node.at? (path ++ rest) = (node.at? path).bind (at? rest) := by
  induction path generalizing node with
  | nil => rfl
  | cons place path ih =>
      rw [List.cons_append, at?_cons, at?_cons]
      cases node.children[place]? with
      | none => rfl
      | some child => exact ih child

theorem mem_preorder_of_at? {path : List Nat} {node part : Node}
    (hpart : node.at? path = some part) : part ∈ node.preorder := by
  induction path generalizing node with
  | nil =>
      obtain rfl := Option.some.inj hpart
      exact node.mem_preorder_self
  | cons place rest ih =>
      obtain ⟨child, hchild, hpart⟩ := at?_cons_eq_some_iff.mp hpart
      exact mem_preorder_of_mem_children (List.mem_of_getElem? hchild) (ih hpart)

/-- Where children are related one by one, so are the parts below a place of them. -/
theorem rel_at?_cons {r s : Node → Node → Prop} {old new : Node} {place : Nat}
    {rest : List Nat} (hchildren : List.Forall₂ s old.children new.children)
    (hplace : ∀ child newChild, old.children[place]? = some child → s child newChild →
      Option.Rel r (child.at? rest) (newChild.at? rest)) :
    Option.Rel r (old.at? (place :: rest)) (new.at? (place :: rest)) := by
  have hrow := rel_getElem?_of_forall₂ hchildren place
  rw [at?_cons, at?_cons]
  cases hold : old.children[place]? with
  | none =>
      rw [hold] at hrow
      cases hnew : new.children[place]? with
      | none => exact .none
      | some newChild => simp [hnew] at hrow
  | some child =>
      rw [hold] at hrow
      obtain ⟨newChild, hnewChild, hchild⟩ := exists_of_rel_some hrow
      rw [hnewChild]
      exact hplace child newChild hold hchild

end Node

end QueryPlan
