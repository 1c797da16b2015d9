import Mathlib.Data.List.Forall2
import QueryPlan.Proofs.Annotations.Lookup
import QueryPlan.Proofs.Binary64
import QueryPlan.Proofs.Node.Positions

/-!
# Equality by structure alone

Plans are alike when they have equal fields, alike annotations under the same
names and alike children in the same order; floats count by the numbers that
they stand for, and foreign values by their contents.  No handle, storage,
pointer or kept type is looked at.  Plans of which every part is well formed are
alike exactly when their normal forms are equal.
-/

namespace QueryPlan

def Literal.Alike : Literal → Literal → Prop
  | .float a, .float b => a.number = b.number
  | a, b => a = b

def Label.Alike : Label → Label → Prop
  | .constant a type, .constant b type' => a.Alike b ∧ type = type'
  | a, b => a = b

theorem Literal.alike_iff_normal_eq (a b : Literal) :
    a.Alike b ↔ a.normal = b.normal := by
  cases a <;> cases b <;>
    simp [Alike, normal, ← Binary64.same_iff_canonical_eq, Binary64.same_iff_number_eq]

theorem Label.alike_iff_normal_eq (a b : Label) :
    a.Alike b ↔ a.normal = b.normal := by
  cases a <;> cases b <;> simp [Alike, normal, Literal.alike_iff_normal_eq]

variable [ForeignTypes]

open ForeignTypes (LawfulEqual)

/-- Foreign values are compared by their own type. -/
def NoteValue.Alike : NoteValue → NoteValue → Prop
  | .literal a, .literal b => a.Alike b
  | .foreign a, .foreign b => a.alike b = true
  | _, _ => False

/-- Each name has no value in both sets, or alike values. -/
def Annotations.Alike (a b : Annotations) : Prop :=
  ∀ name, Option.Rel NoteValue.Alike (a.get? name) (b.get? name)

inductive Node.Alike : Node → Node → Prop
  | intro {a b : Node} :
      a.label.Alike b.label → a.annotations.Alike b.annotations →
      List.Forall₂ Alike a.children b.children → Alike a b

theorem NoteValue.Lawful.alike_iff {a : NoteValue} (ha : a.Lawful) (b : NoteValue) :
    a.Alike b ↔ a.normal = b.normal := by
  cases a <;> cases b
  case foreign.foreign a b =>
    have hlawful : LawfulEqual := ha
    simp [Alike, normal, ← Foreign.same_iff_alike, Foreign.same_iff_representative_eq]
  all_goals simp [Alike, normal, Literal.alike_iff_normal_eq]

theorem Annotations.WellFormed.alike_iff {a b : Annotations} (ha : a.WellFormed)
    (hb : b.WellFormed) (hlawful : ∀ note ∈ a.notes, note.value.Lawful) :
    a.Alike b ↔ a.normal = b.normal := by
  rw [ha.normal_eq_iff_get?_eq hb]
  apply forall_congr'
  intro name
  cases hget : a.get? name with
  | none => cases b.get? name <;> simp
  | some value =>
      have hvalue := hlawful ⟨name, value⟩ (ha.mem_notes_iff.mpr hget)
      cases b.get? name <;> simp [hvalue.alike_iff]

namespace Node

theorem WellFormed.normal_eq_iff {a b : Node} (ha : a.WellFormed) (hb : b.WellFormed) :
    a.normal = b.normal ↔
      a.label.normal = b.label.normal ∧
        a.annotations.normal = b.annotations.normal ∧
        a.children.map Node.normal = b.children.map Node.normal := by
  constructor
  · intro heq
    obtain ⟨hlabel, hannotations, hchildren⟩ := parts_normal_eq heq
    exact ⟨hlabel, hannotations, map_eq_map_iff_forall₂.mpr hchildren⟩
  · rintro ⟨hlabel, hannotations, hchildren⟩
    rw [ha.normal_eq, hb.normal_eq, hlabel, hannotations, hchildren]

theorem alike_iff (a b : Node) :
    a.Alike b ↔ a.label.Alike b.label ∧ a.annotations.Alike b.annotations ∧
      List.Forall₂ Alike a.children b.children := by
  constructor
  · rintro ⟨hlabel, hannotations, hchildren⟩
    exact ⟨hlabel, hannotations, hchildren⟩
  · rintro ⟨hlabel, hannotations, hchildren⟩
    exact .intro hlabel hannotations hchildren

theorem forall₂_alike_iff {as bs : List Node}
    (halike : ∀ a ∈ as, ∀ b ∈ bs, a.Alike b ↔ a.normal = b.normal) :
    List.Forall₂ Alike as bs ↔ as.map Node.normal = bs.map Node.normal := by
  induction as generalizing bs with
  | nil => cases bs <;> simp
  | cons a as ih =>
      cases bs with
      | nil => simp
      | cons b bs =>
          rw [List.forall₂_cons, List.map_cons, List.map_cons, List.cons.injEq,
            halike a List.mem_cons_self b List.mem_cons_self,
            ih fun a ha b hb =>
              halike a (List.mem_cons_of_mem _ ha) b (List.mem_cons_of_mem _ hb)]

theorem Whole.alike_iff {a b : Node} (ha : a.Whole) (hb : b.Whole) (hlawful : a.Lawful) :
    a.Alike b ↔ a.normal = b.normal := by
  induction a using Node.inductionOn generalizing b with
  | step a ih =>
      obtain ⟨hwellA, hpartsA⟩ := whole_iff.mp ha
      obtain ⟨hwellB, hpartsB⟩ := whole_iff.mp hb
      obtain ⟨hnotes, hlawfulParts⟩ := lawful_iff.mp hlawful
      have hchildren := forall₂_alike_iff fun child hchild other hother =>
        ih child hchild (hpartsA child hchild) (hpartsB other hother)
          (hlawfulParts child hchild)
      rw [Node.alike_iff, hwellA.normal_eq_iff hwellB, Label.alike_iff_normal_eq,
        hwellA.annotations.alike_iff hwellB.annotations hnotes, hchildren]

/-! ## What alike plans share -/

/-- What a node shows of its shape: its kind, how many children it has, and the
type that it has as an expression. -/
def shape (node : Node) : Kind × Nat × Option DataType :=
  (node.kind, node.children.length, node.dataType?)

theorem shape_normal (node : Node) : node.normal.shape = node.shape := by
  simp [shape, dataType?]

theorem at?_normal (path : List Nat) (node : Node) :
    node.normal.at? path = (node.at? path).map normal := by
  induction path generalizing node with
  | nil => rfl
  | cons place rest ih =>
      rw [at?_cons, at?_cons, normal_children, List.getElem?_map]
      cases node.children[place]? with
      | none => rfl
      | some child => exact ih child

end Node

end QueryPlan
