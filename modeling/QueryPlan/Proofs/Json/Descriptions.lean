import QueryPlan.Json.Codec
import QueryPlan.Proofs.Json.Reading

/-!
# Descriptions come back from their texts

The document of a description holds texts, arrays and objects only, so either of its layouts is
read back as that document.  A description is found in the document as long as the document is
not nested too deeply.  Every list counts as a level, also an empty one.
-/

namespace QueryPlan

namespace Json

mutual

/-- How many arrays and objects stand inside one another. -/
def depth (json : Json) : Nat :=
  match json with
  | null | bool _ | number _ | string _ => 0
  | array items => itemsDepth items + 1
  | object members => membersDepth members + 1

def itemsDepth : List Json → Nat
  | [] => 0
  | item :: rest => max (depth item) (itemsDepth rest)

def membersDepth : List (List Char × Json) → Nat
  | [] => 0
  | (_, value) :: rest => max (depth value) (membersDepth rest)

end

/-- Values that come back from documents of bounded depth come back from a list of them. -/
theorem mapM_toJson {α : Type} {toJson : α → Json} {ofJson : Json → Option α} {levels : Nat}
    {values : List α} (hvalues : ∀ value ∈ values,
      ofJson (toJson value) = if (toJson value).depth ≤ levels then some value else none) :
    (values.map toJson).mapM ofJson =
      if itemsDepth (values.map toJson) ≤ levels then some values else none := by
  induction values with
  | nil => simp [itemsDepth]
  | cons value rest ih =>
      obtain ⟨hvalue, hrest⟩ := List.forall_mem_cons.mp hvalues
      simp only [List.map_cons, List.mapM_cons, itemsDepth, Nat.max_le]
      rw [hvalue, ih hrest]
      by_cases hfirst : (toJson value).depth ≤ levels <;>
        by_cases hothers : itemsDepth (rest.map toJson) ≤ levels <;> simp [hfirst, hothers]

theorem word?_ofString {α : Type} (ofTag? : String → Option α) (levels : Nat) (tag : String) :
    (ofString tag).word? ofTag? levels = ofTag? tag := by
  simp [word?, choice?, ofString]

end Json

open Json

theorem Kind.ofJson_toJson (levels : Nat) (kind : Kind) :
    ofJson levels kind.toJson = some kind := by
  rw [ofJson, toJson, word?_ofString, ofName?_name]

/-! ## Pairs -/

namespace Pair

theorem textual_toJson (pair : Pair) : pair.toJson.Textual := by
  refine .object ?_ ?_
  · simp only [List.forall_mem_cons]
    exact ⟨⟨"key".toList, rfl⟩, ⟨"value".toList, rfl⟩, by simp⟩
  · simp only [List.forall_mem_cons]
    exact ⟨.string _, .string _, by simp⟩

theorem ofJson_toJson (levels : Nat) (pair : Pair) :
    ofJson levels pair.toJson = if pair.toJson.depth ≤ levels then some pair else none := by
  have hdepth : pair.toJson.depth = 1 := rfl
  have hrecord : pair.toJson.record? ["key", "value"]
      = some [.ofString pair.key, .ofString pair.value] := rfl
  cases levels with
  | zero => simp [ofJson, hdepth]
  | succ levels => simp [ofJson, hdepth, hrecord]

theorem listOfJson_toJson (levels : Nat) (pairs : List Pair) :
    listOfJson levels (.array (pairs.map toJson)) =
      if (array (pairs.map toJson)).depth ≤ levels then some pairs else none := by
  cases levels with
  | zero => simp [listOfJson, depth]
  | succ levels =>
      rw [listOfJson, mapM_toJson fun pair _ => ofJson_toJson levels pair]
      simp [depth]

end Pair

/-! ## Descriptions -/

namespace Description

/-- Induction on descriptions: what passes from the children of a description to the
description holds of every description. -/
theorem inductionOn {motive : Description → Prop} (description : Description)
    (step : ∀ kind details annotations children, (∀ child ∈ children, motive child) →
      motive ⟨kind, details, annotations, children⟩) : motive description := by
  refine @Description.rec motive (fun children => ∀ child ∈ children, motive child)
    step ?_ ?_ description
  · simp
  · exact fun _ _ hfirst hrest => List.forall_mem_cons.mpr ⟨hfirst, hrest⟩

theorem toJsonAll_eq_map (descriptions : List Description) :
    toJsonAll descriptions = descriptions.map toJson := by
  induction descriptions with
  | nil => rfl
  | cons description rest ih => rw [toJsonAll, ih, List.map_cons]

theorem textual_toJson (description : Description) : description.toJson.Textual := by
  induction description using inductionOn with
  | step kind details annotations children ih =>
      have hpairs (pairs : List Pair) : (array (pairs.map Pair.toJson)).Textual :=
        .array (by simpa using fun pair _ => pair.textual_toJson)
      rw [toJson, toJsonAll_eq_map]
      refine .object ?_ ?_
      · simp only [List.forall_mem_cons]
        exact ⟨⟨"kind".toList, rfl⟩, ⟨"details".toList, rfl⟩, ⟨"annotations".toList, rfl⟩,
          ⟨"children".toList, rfl⟩, by simp⟩
      · simp only [List.forall_mem_cons]
        exact ⟨.string _, hpairs details, hpairs annotations, .array (by simpa using ih), by simp⟩

theorem depth_toJson (kind : Kind) (details annotations : List Pair)
    (children : List Description) :
    (toJson ⟨kind, details, annotations, children⟩).depth =
      max (array (details.map Pair.toJson)).depth
        (max (array (annotations.map Pair.toJson)).depth
          (itemsDepth (children.map toJson) + 1)) + 1 := by
  simp [toJson, toJsonAll_eq_map, depth, membersDepth, Kind.toJson, ofString]

example : (ofKind .table).toJson.depth = 2 := rfl

theorem ofJson_toJson (levels : Nat) (description : Description) :
    ofJson levels description.toJson =
      if description.toJson.depth ≤ levels then some description else none := by
  induction description using inductionOn generalizing levels with
  | step kind details annotations children ih =>
      have hrecord : (toJson ⟨kind, details, annotations, children⟩).record?
          ["kind", "details", "annotations", "children"] =
            some [kind.toJson, .array (details.map Pair.toJson),
              .array (annotations.map Pair.toJson), .array (children.map toJson)] := by
        rw [toJson, toJsonAll_eq_map]
        rfl
      rw [depth_toJson]
      match levels with
      | 0 | 1 =>
          rw [if_neg (by omega)]
          rfl
      | levels + 2 =>
          have hread := mapM_toJson fun child hchild => ih child hchild levels
          simp only [ofJson, hrecord, Kind.ofJson_toJson, Pair.listOfJson_toJson, hread,
            Option.bind_eq_bind, Option.bind_some, Nat.add_le_add_iff_right, Nat.max_le]
          by_cases hdetails : (array (details.map Pair.toJson)).depth ≤ levels + 1 <;>
            by_cases hannotations : (array (annotations.map Pair.toJson)).depth ≤ levels + 1 <;>
              by_cases hchildren : itemsDepth (children.map toJson) ≤ levels <;>
                simp [hdetails, hannotations, hchildren]

/-- A description comes back from either of its texts, unless it is nested too deeply. -/
theorem read_back_from_either_layout (description : Description) :
    read? description.text =
        (if description.toJson.depth ≤ deepest then some description else none) ∧
      read? description.prettyText =
        (if description.toJson.depth ≤ deepest then some description else none) := by
  constructor
  · rw [read?, text, description.textual_toJson.read?_text]
    exact description.ofJson_toJson deepest
  · rw [read?, prettyText, description.textual_toJson.read?_prettyText]
    exact description.ofJson_toJson deepest

end Description

end QueryPlan
