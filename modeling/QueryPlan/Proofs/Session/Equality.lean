import Mathlib.Data.List.Forall2
import QueryPlan.Proofs.Node.Normal
import QueryPlan.Proofs.Session.Soundness

/-!
# Equality in sound sessions

Equality looks at handles first.  In a sound session this is only a short cut:
known nodes are the same exactly when their normal forms are equal.
-/

namespace QueryPlan

variable [ForeignTypes]

open ForeignTypes (LawfulEqual)

namespace Node

theorem sameAll_iff_forall₂ (as bs : List Node) :
    sameAll as bs = true ↔ List.Forall₂ (fun a b => a.same b = true) as bs := by
  induction as generalizing bs with
  | nil => cases bs <;> simp [sameAll]
  | cons a as ih => cases bs <;> simp [sameAll, ih]

theorem same_iff (a b : Node) :
    a.same b = true ↔ a.handle = b.handle ∨
      a.label.same b.label = true ∧ sameAll a.children b.children = true ∧
        a.annotations.same b.annotations = true := by
  cases a
  cases b
  simp [same, and_assoc]

theorem same_self (node : Node) : node.same node = true :=
  (same_iff node node).mpr (.inl rfl)

/-- A node is the same under another handle. -/
theorem same_with_handle (node : Node) (handle : Handle) :
    ({ node with handle } : Node).same node = true := by
  refine (same_iff _ _).mpr (.inr ⟨?_, ?_, ?_⟩)
  · exact (Label.same_iff_normal_eq _ _).mpr rfl
  · exact (sameAll_iff_forall₂ _ _).mpr
      (List.forall₂_same.mpr fun child _ => child.same_self)
  · simp [Annotations.same, Annotations.shares]

theorem Lawful.same_of_normal_eq {a b : Node} (ha : a.Lawful)
    (hnormal : a.normal = b.normal) : a.same b = true := by
  induction a using Node.inductionOn generalizing b with
  | step a ih =>
      obtain ⟨hnotes, hparts⟩ := lawful_iff.mp ha
      obtain ⟨hlabel, hannotations, hchildren⟩ := parts_normal_eq hnormal
      refine (same_iff a b).mpr (.inr ⟨?_, ?_, ?_⟩)
      · exact (Label.same_iff_normal_eq _ _).mpr hlabel
      · obtain ⟨hlength, hget⟩ := List.forall₂_iff_get.mp hchildren
        refine (sameAll_iff_forall₂ _ _).mpr (List.forall₂_iff_get.mpr ⟨hlength, ?_⟩)
        intro place hplace hplace'
        exact ih _ (List.get_mem _ _) (hparts _ (List.get_mem _ _))
          (hget place hplace hplace')
      · have hmap : a.annotations.notes.map Note.normal =
            b.annotations.notes.map Note.normal := by
          rw [← Annotations.notes_normal, ← Annotations.notes_normal, hannotations]
        simp [Annotations.same, Note.sameAll_of_map_normal_eq hnotes hmap]

end Node

namespace Session

variable {session : Session}

theorem Sound.annotations_normal_eq (hsound : session.Sound) {a b : Node}
    (ha : session.Knows a) (hb : session.Knows b)
    (hsame : a.annotations.same b.annotations = true) :
    a.annotations.normal = b.annotations.normal := by
  simp only [Annotations.same, Annotations.shares, Bool.or_eq_true,
    decide_eq_true_eq] at hsame
  rcases hsame with hstorage | hnotes
  · rw [hsound.storages a b ha hb hstorage]
  · refine ((hsound.wellFormed a ha).annotations.normal_eq_iff
      (hsound.wellFormed b hb).annotations).mpr ?_
    exact Note.map_normal_eq_of_sameAll hnotes

theorem Sound.normal_eq_of_same (hsound : session.Sound) {a b : Node}
    (ha : session.Knows a) (hb : session.Knows b) (hsame : a.same b = true) :
    a.normal = b.normal := by
  induction a using Node.inductionOn generalizing b with
  | step a ih =>
      rcases (Node.same_iff a b).mp hsame with
        hhandle | ⟨hlabel, hchildren, hannotations⟩
      · rw [hsound.coherent a b ha hb hhandle]
      · have hchildren : a.children.map Node.normal = b.children.map Node.normal := by
          obtain ⟨hlength, hget⟩ := List.forall₂_iff_get.mp
            ((Node.sameAll_iff_forall₂ _ _).mp hchildren)
          apply List.ext_get (by simpa using hlength)
          intro place hplace hplace'
          simp only [List.length_map] at hplace hplace'
          simpa using ih _ (List.get_mem _ _)
            (ha.child (List.get_mem _ ⟨place, hplace⟩))
            (hb.child (List.get_mem _ ⟨place, hplace'⟩)) (hget place hplace hplace')
        rw [(hsound.wellFormed a ha).normal_eq, (hsound.wellFormed b hb).normal_eq,
          (Label.same_iff_normal_eq _ _).mp hlabel, hchildren,
          hsound.annotations_normal_eq ha hb hannotations]

theorem Sound.same_iff_normal_eq [LawfulEqual] (hsound : session.Sound) {a b : Node}
    (ha : session.Knows a) (hb : session.Knows b) :
    a.same b = true ↔ a.normal = b.normal :=
  ⟨hsound.normal_eq_of_same ha hb, a.lawful.same_of_normal_eq⟩

theorem Sound.kind_eq (hsound : session.Sound) {a b : Node} (ha : session.Knows a)
    (hb : session.Knows b) (hsame : a.same b = true) : a.kind = b.kind := by
  rw [← a.normal_kind, hsound.normal_eq_of_same ha hb hsame, b.normal_kind]

theorem Sound.length_preorder_eq_of_same (hsound : session.Sound) {a b : Node}
    (ha : session.Knows a) (hb : session.Knows b) (hsame : a.same b = true) :
    a.preorder.length = b.preorder.length := by
  have hlength := congrArg (fun node => node.preorder.length)
    (hsound.normal_eq_of_same ha hb hsame)
  simpa only [Node.preorder_normal, List.length_map] using hlength

end Session

end QueryPlan
