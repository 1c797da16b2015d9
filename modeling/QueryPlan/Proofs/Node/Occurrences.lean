import Mathlib.Data.List.Nodup
import QueryPlan.Proofs.Node.Positions

/-!
# Occurrences

A node that is shared stands at several positions of a plan.  An occurrence is a part of a
plan together with its position.  The occurrences are listed in preorder, so that without
the positions the list is the preorder of the plan, and no position is listed twice.
-/

namespace QueryPlan

variable [ForeignTypes]

namespace Node

mutual

/-- The parts of a plan with their positions, in preorder. -/
def occurrences (node : Node) : List (List Nat × Node) :=
  match node with
  | ⟨_, _, _, _, children⟩ => ([], node) :: occurrencesAll 0 children

/-- The occurrences below children of which the first is at a place. -/
def occurrencesAll (place : Nat) : List Node → List (List Nat × Node)
  | [] => []
  | node :: rest =>
      (occurrences node).map (fun (position, part) => (place :: position, part)) ++
        occurrencesAll (place + 1) rest

end

theorem occurrences_eq (node : Node) :
    node.occurrences = ([], node) :: occurrencesAll 0 node.children := by
  cases node
  rfl

theorem map_snd_occurrencesAll (place : Nat) {nodes : List Node}
    (hnodes : ∀ node ∈ nodes, node.occurrences.map Prod.snd = node.preorder) :
    (occurrencesAll place nodes).map Prod.snd = nodes.flatMap preorder := by
  induction nodes generalizing place with
  | nil => rfl
  | cons node rest ih =>
      obtain ⟨hnode, hrest⟩ := List.forall_mem_cons.mp hnodes
      rw [occurrencesAll, List.map_append, List.map_map, List.flatMap_cons, ← hnode,
        ih (place + 1) hrest]
      rfl

/-- The occurrences are the preorder, with positions. -/
theorem map_snd_occurrences (node : Node) :
    node.occurrences.map Prod.snd = node.preorder := by
  induction node using Node.inductionOn with
  | step node ih =>
      rw [occurrences_eq, List.map_cons, map_snd_occurrencesAll 0 ih, preorder_eq]

theorem mem_occurrencesAll_iff {place : Nat} {nodes : List Node} {position : List Nat}
    {part : Node} :
    (position, part) ∈ occurrencesAll place nodes ↔
      ∃ i rest child, position = (place + i) :: rest ∧ nodes[i]? = some child ∧
        (rest, part) ∈ child.occurrences := by
  induction nodes generalizing place with
  | nil => simp [occurrencesAll]
  | cons node nodes ih =>
      rw [occurrencesAll, List.mem_append, ih]
      constructor
      · rintro (hfirst | ⟨i, rest, child, rfl, hchild, hpart⟩)
        · obtain ⟨⟨rest, _⟩, hpart, heq⟩ := List.mem_map.mp hfirst
          cases heq
          exact ⟨0, rest, node, rfl, rfl, hpart⟩
        · exact ⟨i + 1, rest, child, by rw [Nat.add_assoc, Nat.add_comm 1 i], by simpa, hpart⟩
      · rintro ⟨_ | i, rest, child, rfl, hchild, hpart⟩
        · obtain rfl : node = child := by simpa using hchild
          exact .inl (List.mem_map.mpr ⟨(rest, part), hpart, rfl⟩)
        · exact .inr ⟨i, rest, child, by rw [Nat.add_assoc, Nat.add_comm 1 i],
            by simpa using hchild, hpart⟩

/-- The occurrences are the parts at all positions. -/
theorem mem_occurrences_iff {position : List Nat} {node part : Node} :
    (position, part) ∈ node.occurrences ↔ node.at? position = some part := by
  induction position generalizing node with
  | nil =>
      rw [occurrences_eq, List.mem_cons]
      constructor
      · rintro (hroot | hbelow)
        · cases hroot
          rfl
        · obtain ⟨_, _, _, hposition, -⟩ := mem_occurrencesAll_iff.mp hbelow
          cases hposition
      · intro hroot
        obtain rfl := Option.some.inj hroot
        exact .inl rfl
  | cons place rest ih =>
      rw [occurrences_eq, List.mem_cons, mem_occurrencesAll_iff, at?_cons_eq_some_iff]
      constructor
      · rintro (hroot | ⟨i, _, child, hposition, hchild, hpart⟩)
        · cases hroot
        · rw [Nat.zero_add] at hposition
          obtain ⟨rfl, rfl⟩ := List.cons.inj hposition
          exact ⟨child, hchild, ih.mp hpart⟩
      · rintro ⟨child, hchild, hpart⟩
        exact .inr ⟨place, rest, child, by rw [Nat.zero_add], hchild, ih.mpr hpart⟩

theorem nodup_occurrencesAll (place : Nat) {nodes : List Node}
    (hnodes : ∀ node ∈ nodes, (node.occurrences.map Prod.fst).Nodup) :
    ((occurrencesAll place nodes).map Prod.fst).Nodup := by
  induction nodes generalizing place with
  | nil => exact List.nodup_nil
  | cons node rest ih =>
      obtain ⟨hnode, hrest⟩ := List.forall_mem_cons.mp hnodes
      have hfirst : ((occurrences node).map
          (fun (position, part) => (place :: position, part))).map Prod.fst =
            (node.occurrences.map Prod.fst).map (place :: ·) := by
        rw [List.map_map, List.map_map]
        rfl
      rw [occurrencesAll, List.map_append, hfirst, List.nodup_append]
      refine ⟨hnode.map List.cons_injective, ih (place + 1) hrest, ?_⟩
      intro position hposition other hother
      obtain ⟨first, -, rfl⟩ := List.mem_map.mp hposition
      obtain ⟨⟨_, part⟩, hlater, rfl⟩ := List.mem_map.mp hother
      obtain ⟨i, later, -, rfl, -⟩ := mem_occurrencesAll_iff.mp hlater
      simp only [ne_eq, List.cons.injEq, not_and]
      omega

/-- No position is listed twice. -/
theorem nodup_occurrences (node : Node) : (node.occurrences.map Prod.fst).Nodup := by
  induction node using Node.inductionOn with
  | step node ih =>
      rw [occurrences_eq, List.map_cons, List.nodup_cons]
      refine ⟨?_, nodup_occurrencesAll 0 ih⟩
      intro hroot
      obtain ⟨⟨_, part⟩, hbelow, hposition⟩ := List.mem_map.mp hroot
      obtain ⟨i, rest, -, rfl, -⟩ := mem_occurrencesAll_iff.mp hbelow
      cases hposition

end Node

end QueryPlan
