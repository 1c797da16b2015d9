import QueryPlan.Node.Digest
import QueryPlan.Proofs.Annotations.Hints
import QueryPlan.Proofs.Session.Equality
import QueryPlan.Proofs.Session.Reached

/-!
# Digests of equal plans

The digest of a plan is that of its normal form, so plans that are the same have
one digest, whatever bits their floats have and in whatever order they were
annotated.  The form of a join has no part in a digest at all.
-/

namespace QueryPlan

/-! ## Literals and labels -/

theorem Binary64.canonical_canonical (x : Binary64) :
    x.canonical.canonical = x.canonical := by
  by_cases hnan : x.isNaN = true
  · have hnan' := (isNaN_canonical x).trans hnan
    rw [canonical, if_pos hnan', canonical, if_pos hnan]
  · by_cases hzero : x.isZero = true
    · simp only [canonical, hnan, hzero, if_true]
      decide
    · simp [canonical, hnan, hzero]

theorem Literal.digest_normal (value : Literal) : value.normal.digest = value.digest := by
  cases value <;> simp [normal, digest, Binary64.canonical_canonical]

theorem Label.digest_normal (label : Label) (count : Nat) :
    label.normal.digest count = label.digest count := by
  cases label <;> simp [normal, digest, Literal.digest_normal]

/-- The same label, but for the form of a join. -/
def Label.Rejoins : Label → Label → Prop
  | .join _, .join _ => True
  | .joinOn _, .joinOn _ => True
  | a, b => a = b

theorem Label.Rejoins.digest_eq {a b : Label} (hlabel : a.Rejoins b) (count : Nat) :
    a.digest count = b.digest count := by
  unfold Rejoins at hlabel
  split at hlabel
  · rfl
  · rfl
  · rw [hlabel]

theorem Label.Rejoins.category_eq {a b : Label} (hlabel : a.Rejoins b) :
    a.category = b.category := by
  unfold Rejoins at hlabel
  split at hlabel
  · rename_i form form'
    cases form <;> cases form' <;> rfl
  · rename_i form form'
    cases form <;> cases form' <;> rfl
  · rw [hlabel]

section

variable [ForeignTypes]

open ForeignTypes (LawfulDigest)

open Session

/-! ## Digests of normal forms -/

theorem NoteValue.digest_normal [LawfulDigest] (value : NoteValue) :
    value.normal.digest = value.digest := by
  cases value with
  | literal value => simp [normal, digest, Literal.digest_normal]
  | foreign value => simp [normal, digest, value.digest_representative]

theorem Note.digest_normal [LawfulDigest] (note : Note) :
    note.normal.digest = note.digest := by
  simp [normal, digest, NoteValue.digest_normal]

theorem Annotations.digest_normal [LawfulDigest] (annotations : Annotations) :
    annotations.normal.digest = annotations.digest := by
  simp [digest, Digest.ofList, notes_normal, List.flatMap_map, Note.digest_normal]

namespace Node

theorem innerAll_eq_flatMap (nodes : List Node) :
    innerAll nodes = nodes.flatMap inner := by
  induction nodes with
  | nil => rfl
  | cons node rest ih => rw [innerAll, ih, List.flatMap_cons]

theorem inner_eq (node : Node) :
    node.inner = node.label.digest node.children.length ++
      node.children.flatMap inner ++ node.annotations.digest := by
  cases node with
  | mk handle label type annotations children => rw [inner, innerAll_eq_flatMap]

theorem inner_normal [LawfulDigest] (node : Node) : node.normal.inner = node.inner := by
  induction node using Node.inductionOn with
  | step node ih =>
      have hchildren : (node.children.map normal).flatMap inner =
          node.children.flatMap inner := by
        rw [List.flatMap_map]
        exact List.flatMap_congr ih
      rw [inner_eq, inner_eq, normal_label, normal_annotations, normal_children,
        List.length_map, hchildren, Label.digest_normal, Annotations.digest_normal]

theorem digest_normal [LawfulDigest] (node : Node) : node.normal.digest = node.digest := by
  rw [digest, digest, normal_category, inner_normal]

end Node

/-! ## Joins of other forms -/

/-- The same plan, but for the forms of some of the joins in it.  The nodes may
have other handles. -/
inductive Node.Rejoins : Node → Node → Prop
  | intro {a b : Node} :
      a.label.Rejoins b.label → a.annotations.notes = b.annotations.notes →
      List.Forall₂ Rejoins a.children b.children → Rejoins a b

namespace Node

theorem flatMap_inner_eq {as bs : List Node} (hrejoins : List.Forall₂ Rejoins as bs)
    (hinner : ∀ a ∈ as, ∀ b : Node, a.Rejoins b → a.inner = b.inner) :
    as.flatMap inner = bs.flatMap inner := by
  induction hrejoins with
  | nil => rfl
  | cons hfirst _ ih =>
      rw [List.flatMap_cons, List.flatMap_cons,
        hinner _ List.mem_cons_self _ hfirst,
        ih fun a ha => hinner a (List.mem_cons_of_mem _ ha)]

theorem rejoins_self (node : Node) : node.Rejoins node := by
  induction node using Node.inductionOn with
  | step node ih =>
      have hlabel : node.label.Rejoins node.label := by
        cases node.label <;> trivial
      exact .intro hlabel rfl (List.forall₂_same.mpr ih)

theorem Rejoins.inner_eq {a b : Node} (hrejoins : a.Rejoins b) : a.inner = b.inner := by
  induction a using Node.inductionOn generalizing b with
  | step a ih =>
      obtain ⟨hlabel, hnotes, hchildren⟩ := hrejoins
      have hannotations : a.annotations.digest = b.annotations.digest := by
        rw [Annotations.digest, Annotations.digest, hnotes]
      rw [Node.inner_eq, Node.inner_eq, hlabel.digest_eq, hannotations,
        hchildren.length_eq, flatMap_inner_eq hchildren ih]

theorem Rejoins.digest_eq {a b : Node} (hrejoins : a.Rejoins b) :
    a.digest = b.digest := by
  have hinner := hrejoins.inner_eq
  obtain ⟨hlabel, -, -⟩ := hrejoins
  have hcategory : a.category = b.category := hlabel.category_eq
  rw [digest, digest, hcategory, hinner]

end Node

/-- Known plans that are the same are digested alike, by themselves and as parts
of others; and so are any two plans that differ in the forms of joins alone. -/
theorem digest_respects_same_and_forms [LawfulDigest] {session : Session}
    (hreached : session.Reached) :
    (∀ a b, session.Knows a → session.Knows b → a.same b = true →
      a.inner = b.inner ∧ a.digest = b.digest) ∧
      ∀ a b : Node, a.Rejoins b → a.inner = b.inner ∧ a.digest = b.digest := by
  constructor
  · intro a b ha hb hsame
    have hnormal := hreached.sound.normal_eq_of_same ha hb hsame
    constructor
    · rw [← a.inner_normal, hnormal, b.inner_normal]
    · rw [← a.digest_normal, hnormal, b.digest_normal]
  · intro a b hrejoins
    exact ⟨hrejoins.inner_eq, hrejoins.digest_eq⟩

end

open Session
open scoped Hints

/-- Two NaNs with other bits, annotated in other orders with zeros of other
signs and with estimates that are shared apart and have other remarks; and joins
of two forms over the first of them. -/
theorem digest_respects_same_and_forms_annotated :
    ∃ (session : Session) (a b : Node), session.Reached ∧ session.Knows a ∧
      session.Knows b ∧ a.label ≠ b.label ∧
      a.annotations.notes ≠ b.annotations.notes ∧ a.same b = true ∧
      a.digest = b.digest ∧
      ∀ table : Node,
        ((Label.joinOn .left).node 6 .empty [table, a]).digest =
          ((Label.joinOn .inner).node 7 .empty [table, a]).digest := by
  let guess : Note := ⟨"k", .foreign (Hints.estimate 0 100 "guessed")⟩
  let count : Note := ⟨"k", .foreign (Hints.estimate 1 100 "counted")⟩
  let zero : Note := ⟨"m", .literal (.float ⟨0⟩)⟩
  let negativeZero : Note := ⟨"m", .literal (.float ⟨0x8000000000000000⟩)⟩
  let first := (Label.constant (.float ⟨0x7ff8000000000000⟩) .unknown).node 0 .empty []
  let firstOne : Node := { first with
    handle := 1
    annotations := ⟨some 1, [("m", zero)]⟩ }
  let a : Node := { first with
    handle := 2
    annotations := ⟨some 2, [("k", guess), ("m", zero)]⟩ }
  let second := (Label.constant (.float ⟨0xfff8000000000001⟩) .unknown).node 3 .empty []
  let secondOne : Node := { second with
    handle := 4
    annotations := ⟨some 4, [("k", count)]⟩ }
  let b : Node := { second with
    handle := 5
    annotations := ⟨some 5, [("k", count), ("m", negativeZero)]⟩ }
  let session : Session := ⟨6, [b, secondOne, second, a, firstOne, first]⟩
  have hfirst : Reached ⟨1, [first]⟩ := (Reached.start 0).assemble (by simp) rfl
  have hfirstOne : Reached ⟨2, [firstOne, first]⟩ :=
    hfirst.call _ (.annotate first "m" (.literal (.float ⟨0⟩))
      (knows_of_mem_held List.mem_cons_self)) rfl
  have ha : Reached ⟨3, [a, firstOne, first]⟩ :=
    hfirstOne.call _ (.annotate firstOne "k" (.foreign (Hints.estimate 0 100 "guessed"))
      (knows_of_mem_held List.mem_cons_self)) rfl
  have hsecond : Reached ⟨4, [second, a, firstOne, first]⟩ :=
    ha.assemble (by simp) rfl
  have hsecondOne : Reached ⟨5, [secondOne, second, a, firstOne, first]⟩ :=
    hsecond.call _ (.annotate second "k" (.foreign (Hints.estimate 1 100 "counted"))
      (knows_of_mem_held List.mem_cons_self)) rfl
  have hreached : session.Reached :=
    hsecondOne.call _ (.annotate secondOne "m"
      (.literal (.float ⟨0x8000000000000000⟩))
      (knows_of_mem_held List.mem_cons_self)) rfl
  have hknowsA : session.Knows a := knows_of_mem_held (by simp [session])
  have hknowsB : session.Knows b := knows_of_mem_held (by simp [session])
  have hsame : a.same b = true := by decide
  obtain ⟨hequal, hforms⟩ := digest_respects_same_and_forms hreached
  refine ⟨session, a, b, hreached, hknowsA, hknowsB, by decide, by decide, hsame,
    (hequal a b hknowsA hknowsB hsame).2, ?_⟩
  intro table
  have hrejoins : ((Label.joinOn .left).node 6 .empty [table, a]).Rejoins
      ((Label.joinOn .inner).node 7 .empty [table, a]) := by
    constructor
    · trivial
    · rfl
    · exact List.forall₂_same.mpr fun child _ => child.rejoins_self
  exact (hforms _ _ hrejoins).2

end QueryPlan
