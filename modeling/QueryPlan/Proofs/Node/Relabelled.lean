import QueryPlan.Proofs.Node.Positions
import QueryPlan.Proofs.Session.Collections

/-!
# Relabelled plans

A plan is relabelled when the label of each node was changed, and nothing else: the
types, the annotations and the number and order of children are those of the old plan
at every position.  Moreover a node whose label and children are the old ones is the
old node itself.

What is collected from a relabelled plan follows from what the change does to labels.
-/

namespace QueryPlan

theorem filterMap_eq_of_forall₂ {α β γ : Type} {f : α → Option γ} {g : β → Option γ}
    {as : List α} {bs : List β} (hrows : List.Forall₂ (fun a b => g b = f a) as bs) :
    bs.filterMap g = as.filterMap f := by
  induction hrows with
  | nil => rfl
  | cons hfirst _ ih => rw [List.filterMap_cons, List.filterMap_cons, hfirst, ih]

variable [ForeignTypes]

namespace Node

/-- The second node has what the first one has, but for the label, which was changed. -/
structure MatchesBy (change : Label → Label) (old new : Node) : Prop where
  label : new.label = change old.label
  type : new.type = old.type
  annotations : new.annotations = old.annotations
  arity : new.children.length = old.children.length

inductive RelabelledBy (change : Label → Label) : Node → Node → Prop
  | intro {old new : Node} :
      new.label = change old.label → new.type = old.type →
      new.annotations = old.annotations →
      (new.label = old.label → new.children = old.children → new = old) →
      List.Forall₂ (RelabelledBy change) old.children new.children →
      RelabelledBy change old new

variable {change : Label → Label} {old new : Node}

namespace RelabelledBy

/-- The types follow from the labels if the change keeps what labels make of types. -/
theorem of_wellFormed (hold : old.WellFormed) (hnew : new.WellFormed)
    (htypes : ∀ label types, (change label).typeOf types = label.typeOf types)
    (hlabel : new.label = change old.label) (hannotations : new.annotations = old.annotations)
    (hkept : new.label = old.label → new.children = old.children → new = old)
    (hchildren : List.Forall₂ (RelabelledBy change) old.children new.children) :
    RelabelledBy change old new := by
  refine .intro hlabel ?_ hannotations hkept hchildren
  have hchildTypes : old.children.map (·.type) = new.children.map (·.type) := by
    apply map_eq_map_iff_forall₂.mpr
    refine hchildren.imp fun child newChild hchild => ?_
    cases hchild with
    | intro _ htype => exact htype.symm
  rw [hnew.type_eq, hold.type_eq, hlabel, htypes, hchildTypes]

theorem children (hnew : RelabelledBy change old new) :
    List.Forall₂ (RelabelledBy change) old.children new.children := by
  cases hnew with
  | intro _ _ _ _ hchildren => exact hchildren

theorem matchesBy (hnew : RelabelledBy change old new) : MatchesBy change old new := by
  cases hnew with
  | intro hlabel htype hannotations _ hchildren =>
      exact ⟨hlabel, htype, hannotations, hchildren.length_eq.symm⟩

theorem eq_of_leaf (hnew : RelabelledBy change old new)
    (hlabel : change old.label = old.label) (hleaf : old.children = []) : new = old := by
  cases hnew with
  | intro hnewLabel _ _ hkept hchildren =>
      rw [hleaf] at hchildren
      apply hkept (hnewLabel.trans hlabel)
      rw [hleaf, List.forall₂_nil_left_iff.mp hchildren]

theorem at? (hnew : RelabelledBy change old new) (path : List Nat) :
    Option.Rel (RelabelledBy change) (old.at? path) (new.at? path) := by
  induction path generalizing old new with
  | nil => exact .some hnew
  | cons place rest ih =>
      exact rel_at?_cons hnew.children fun _ _ _ hchild => ih hchild

theorem matchesBy_at? (hnew : RelabelledBy change old new) (path : List Nat) :
    Option.Rel (MatchesBy change) (old.at? path) (new.at? path) := by
  have hparts := hnew.at? path
  generalize old.at? path = part at hparts ⊢
  generalize new.at? path = newPart at hparts ⊢
  cases hparts with
  | none => exact .none
  | some hpart => exact .some hpart.matchesBy

theorem forall₂_preorder (hnew : RelabelledBy change old new) :
    List.Forall₂ (RelabelledBy change) old.preorder new.preorder := by
  induction old using Node.inductionOn generalizing new with
  | step old ih =>
      have hchildren := (List.forall₂_and_left _ _).mpr
        ⟨fun child hchild (new : Node) (hnew : RelabelledBy change child new) =>
          ih child hchild hnew, hnew.children⟩
      rw [preorder_eq, preorder_eq]
      exact .cons hnew (List.rel_flatMap hchildren fun _ _ hpart => hpart.1 _ hpart.2)

/-! ## Collections -/

variable {old new : Node}

theorem filterMap_preorder {γ : Type} {f g : Node → Option γ}
    (hnew : RelabelledBy change old new) (hold : old.Whole)
    (hparts : ∀ part newPart : Node, part.WellFormed → RelabelledBy change part newPart →
      g newPart = f part) :
    new.preorder.filterMap g = old.preorder.filterMap f := by
  apply filterMap_eq_of_forall₂
  refine List.Forall₂.imp ?_ ((List.forall₂_and_left _ _).mpr ⟨hold, hnew.forall₂_preorder⟩)
  exact fun part newPart hpart => hparts part newPart hpart.1 hpart.2

/-- Tables are the same nodes if the change keeps their labels and makes no others. -/
theorem tables_eq (hnew : RelabelledBy change old new) (hold : old.Whole)
    (hnewWhole : new.Whole)
    (htables : ∀ label, label.kind = .table → change label = label)
    (hothers : ∀ label : Label, label.kind ≠ .table → (change label).kind ≠ .table) :
    new.tables = old.tables := by
  rw [hold.tables_eq, hnewWhole.tables_eq, ← List.filterMap_eq_filter]
  apply hnew.filterMap_preorder hold
  intro part newPart hpart hnewPart
  by_cases htable : part.kind = .table
  · have hleaf : part.children = [] := by
      apply List.length_eq_zero_iff.mp
      rw [hpart.arity]
      unfold kind at htable
      cases hlabel : part.label with
      | table => rfl
      | join form => cases form <;> simp [hlabel, Label.kind] at htable
      | joinOn form => cases form <;> simp [hlabel, Label.kind] at htable
      | _ => simp [hlabel, Label.kind] at htable
    rw [hnewPart.eq_of_leaf (htables _ htable) hleaf]
  · have hother : newPart.kind ≠ .table := by
      rw [kind, hnewPart.matchesBy.label]
      exact hothers _ htable
    simp [Option.guard, htable, hother]

theorem functions_eq (hnew : RelabelledBy change old new) (hold : old.Whole)
    (hnewWhole : new.Whole) {image : Signature → Signature}
    (hcalls : ∀ part newPart : Node, MatchesBy change part newPart →
      newPart.signature? = part.signature?.map image) :
    new.functions.Pairwise (fun a b => Signature.order a b = .lt) ∧
      ∀ signature, signature ∈ new.functions ↔
        ∃ called ∈ old.functions, image called = signature := by
  have hsignatures : new.preorder.filterMap signature? =
      (old.preorder.filterMap signature?).map image := by
    rw [List.map_filterMap]
    exact hnew.filterMap_preorder hold
      fun part newPart _ hpart => hcalls part newPart hpart.matchesBy
  rw [hold.functions_eq, hnewWhole.functions_eq, hsignatures]
  refine ⟨Signature.pairwise_distinct (Signature.pairwise_sort _), ?_⟩
  intro signature
  simp only [Signature.mem_distinct, Signature.sort, List.mem_mergeSort, List.mem_map]

theorem parameters_eq (hnew : RelabelledBy change old new) (hold : old.Whole)
    (hnewWhole : new.Whole) (leaves : String → Bool)
    (hparameters : ∀ part newPart : Node, MatchesBy change part newPart →
      newPart.declaration? = part.declaration?.filter fun entry => leaves entry.1) :
    new.parameters = old.parameters.filter fun entry => leaves entry.1 := by
  have hdeclarations : new.preorder.filterMap declaration? =
      (old.preorder.filterMap declaration?).filter fun entry => leaves entry.1 := by
    rw [List.filter_filterMap]
    exact hnew.filterMap_preorder hold
      fun part newPart _ hpart => hparameters part newPart hpart.matchesBy
  rw [hold.parameters_eq, hnewWhole.parameters_eq, hdeclarations,
    ParameterTypes.Sorted.filter_declareAll List.Pairwise.nil]
  rfl

end RelabelledBy

end Node

end QueryPlan
