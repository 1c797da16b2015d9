import QueryPlan.Proofs.Annotations.Extensional
import QueryPlan.Proofs.Annotations.Hints
import QueryPlan.Proofs.Session.Digest

/-!
# Views of annotation sets

The view of a set is what it answers for each name, where equal values count as one.  Storing
a note overwrites the answer for one name.  Setting a name overwrites the view, even if the set
keeps the value that it has.  Well-formed sets are known by their views.

So a set that is made of a list of notes at once and a set in which they are set one after the
other are equal, although they may hold different ones of several equal values.
-/

namespace QueryPlan

section

variable [ForeignTypes]

open ForeignTypes (LawfulEqual LawfulDigest)

namespace Annotations

/-- The answers of a set, up to equality of values. -/
noncomputable def view (annotations : Annotations) (name : String) : Option NoteValue :=
  (annotations.get? name).map NoteValue.normal

/-- Sets the names of a list one after the other, each under the next handle. -/
def setAll (next : Handle) (annotations : Annotations) :
    List (String × NoteValue) → Annotations
  | [] => annotations
  | (name, value) :: rest => setAll (next + 1) (annotations.set next name value) rest

variable {annotations a b : Annotations}

/-! ## What views tell -/

theorem WellFormed.normal_eq_iff_view_eq (ha : a.WellFormed) (hb : b.WellFormed) :
    a.normal = b.normal ↔ a.view = b.view :=
  (ha.normal_eq_iff_get?_eq hb).trans funext_iff.symm

theorem WellFormed.same_of_view_eq [LawfulEqual] (ha : a.WellFormed) (hb : b.WellFormed)
    (hview : a.view = b.view) : a.same b = true :=
  ha.same_of_get? hb (congrFun hview)

theorem WellFormed.digest_eq_of_view_eq [LawfulDigest] (ha : a.WellFormed) (hb : b.WellFormed)
    (hview : a.view = b.view) : a.digest = b.digest := by
  rw [← a.digest_normal, (ha.normal_eq_iff_view_eq hb).mpr hview, b.digest_normal]

theorem WellFormed.digest_eq_of_get?_eq (ha : a.WellFormed) (hb : b.WellFormed)
    (hget : a.get? = b.get?) : a.digest = b.digest := by
  rw [digest, digest, notes, notes, (ha.entries_eq_iff hb).mpr (congrFun hget)]

theorem has_iff_view [LawfulEqual] {name : String} {value : NoteValue} :
    annotations.has name value = true ↔ annotations.view name = some value.normal := by
  rw [has_iff, view, Option.map_eq_some_iff]
  simp only [NoteValue.same_iff_normal_eq]

/-! ## Overwriting -/

theorem get?_put (storage : Option Handle) (note : Note) (entries : List (String × Note)) :
    (Annotations.mk storage (putNote note entries)).get? =
      Function.update (Annotations.mk storage entries).get? note.name (some note.value) := by
  funext name
  rw [get?, putNote, find?_putEntry, Function.update_apply]
  by_cases hname : note.name = name
  · simp [hname]
  · simp [hname, Ne.symm hname, get?]

theorem view_set (annotations : Annotations) (fresh : Handle) (name : String)
    (value : NoteValue) :
    (annotations.set fresh name value).view =
      Function.update annotations.view name (some value.normal) := by
  funext other
  rw [view, normal_get?_set, Function.update_apply]
  simp only [eq_comm, view]

/-- Overwrites answers with the values of a list, the last of a name in the end. -/
def overwrite (answers : String → Option NoteValue) (pairs : List (String × NoteValue)) :
    String → Option NoteValue :=
  pairs.foldl (fun answers pair => Function.update answers pair.1 (some pair.2)) answers

theorem overwrite_cons (answers : String → Option NoteValue) (pair : String × NoteValue)
    (rest : List (String × NoteValue)) :
    overwrite answers (pair :: rest) =
      overwrite (Function.update answers pair.1 (some pair.2)) rest :=
  List.foldl_cons ..

/-- Notes with their values in normal form. -/
noncomputable def normalPairs (pairs : List (String × NoteValue)) : List (String × NoteValue) :=
  pairs.map fun pair => (pair.1, pair.2.normal)

theorem view_setAll (next : Handle) (annotations : Annotations)
    (pairs : List (String × NoteValue)) :
    (annotations.setAll next pairs).view = overwrite annotations.view (normalPairs pairs) := by
  induction pairs generalizing next annotations with
  | nil => rfl
  | cons pair rest ih =>
      rw [setAll, ih, view_set, normalPairs, normalPairs, List.map_cons, overwrite_cons]

theorem get?_foldl_putNote (storage : Option Handle) (entries : List (String × Note))
    (pairs : List (String × NoteValue)) :
    (Annotations.mk storage
      (pairs.foldl (fun entries pair => putNote ⟨pair.1, pair.2⟩ entries) entries)).get? =
      overwrite (Annotations.mk storage entries).get? pairs := by
  induction pairs generalizing entries with
  | nil => rfl
  | cons pair rest ih => rw [List.foldl_cons, ih, get?_put, overwrite_cons]

theorem get?_ofList (fresh : Handle) (pairs : List (String × NoteValue)) :
    (ofList fresh pairs).get? = overwrite empty.get? pairs := by
  cases pairs with
  | nil => rfl
  | cons pair rest => exact get?_foldl_putNote (some fresh) [] (pair :: rest)

theorem map_normal_overwrite (answers : String → Option NoteValue)
    (pairs : List (String × NoteValue)) :
    (fun name => (overwrite answers pairs name).map NoteValue.normal) =
      overwrite (fun name => (answers name).map NoteValue.normal) (normalPairs pairs) := by
  induction pairs generalizing answers with
  | nil => rfl
  | cons pair rest ih =>
      have hupdate : (fun name =>
          (Function.update answers pair.1 (some pair.2) name).map NoteValue.normal) =
          Function.update (fun name => (answers name).map NoteValue.normal) pair.1
            (some pair.2.normal) := by
        funext name
        rw [Function.update_apply, Function.update_apply]
        split <;> rfl
      rw [normalPairs, List.map_cons, overwrite_cons, overwrite_cons, ih, hupdate, normalPairs]

theorem view_ofList (fresh : Handle) (pairs : List (String × NoteValue)) :
    (ofList fresh pairs).view = overwrite empty.view (normalPairs pairs) := by
  have hview : (ofList fresh pairs).view =
      fun name => (overwrite empty.get? pairs name).map NoteValue.normal := by
    rw [← get?_ofList fresh]
    rfl
  rw [hview, map_normal_overwrite]
  rfl

/-- Overwriting different names, in any order. -/
theorem overwrite_perm {pairs others : List (String × NoteValue)} (hperm : pairs.Perm others)
    (hnames : (pairs.map (·.1)).Nodup) (answers : String → Option NoteValue) :
    overwrite answers pairs = overwrite answers others := by
  refine hperm.foldl_eq' (fun first hfirst second hsecond answers => ?_) answers
  by_cases hname : first.1 = second.1
  · rw [List.inj_on_of_nodup_map hnames hfirst hsecond hname]
  · exact Function.update_comm hname _ _ _

/-! ## Well-formedness and sharing -/

theorem WellFormed.setAll (hannotations : annotations.WellFormed) (next : Handle)
    (pairs : List (String × NoteValue)) : (annotations.setAll next pairs).WellFormed := by
  induction pairs generalizing next annotations with
  | nil => exact hannotations
  | cons pair rest ih => exact ih (hannotations.set next pair.1 pair.2) (next + 1)

/-- A set that was listed has no storage only if nothing was listed. -/
theorem shares_ofList_empty_iff (fresh : Handle) (pairs : List (String × NoteValue)) :
    (ofList fresh pairs).shares empty = true ↔ pairs = [] := by
  cases pairs <;> simp [ofList, shares, empty]

end Annotations

open Annotations

/-- A set made of a list of notes at once equals the set in which the names are set one after
the other, under whatever handles; it has the storage of the empty set exactly if nothing is
listed.  Notes of different names may be listed in any order: the sets are equal and digested
alike.  So are a set made at once and one made in turn, if equal foreign values are. -/
theorem listing_agrees_with_setting [LawfulEqual] (fresh next : Handle)
    (pairs : List (String × NoteValue)) :
    (ofList fresh pairs).same (empty.setAll next pairs) = true ∧
    (LawfulDigest → (ofList fresh pairs).digest = (empty.setAll next pairs).digest) ∧
    ((ofList fresh pairs).shares empty = true ↔ pairs = []) ∧
    ∀ (other : Handle) (others : List (String × NoteValue)),
      pairs.Perm others → (pairs.map (·.1)).Nodup →
      (ofList fresh pairs).same (ofList other others) = true ∧
      (ofList fresh pairs).digest = (ofList other others).digest := by
  have hlisted := wellFormed_ofList fresh pairs
  have hset := wellFormed_empty.setAll next pairs
  have hview : (ofList fresh pairs).view = (empty.setAll next pairs).view := by
    rw [view_ofList, view_setAll]
  refine ⟨hlisted.same_of_view_eq hset hview, fun _ => hlisted.digest_eq_of_view_eq hset hview,
    shares_ofList_empty_iff fresh pairs, ?_⟩
  intro other others hperm hnames
  have hpermuted := wellFormed_ofList other others
  have hget : (ofList fresh pairs).get? = (ofList other others).get? := by
    rw [get?_ofList, get?_ofList, overwrite_perm hperm hnames]
  refine ⟨hlisted.same_of_get? hpermuted fun name => ?_,
    hlisted.digest_eq_of_get?_eq hpermuted hget⟩
  rw [hget]

end

open Annotations
open scoped Hints

/-- Of two zeros under one name a list keeps the last and setting in turn the first, which are
written differently; and a list of two names is turned around. -/
theorem listing_agrees_with_setting_zeros :
    ∃ (pairs others : List (String × NoteValue)),
      (ofList 0 pairs).text = "[a=TRUE, z=-0.0]" ∧
      (empty.setAll 1 pairs).text = "[a=TRUE, z=0.0]" ∧
      (ofList 0 pairs).same (empty.setAll 1 pairs) = true ∧
      (ofList 0 others).same (ofList 1 others.reverse) = true ∧ others.reverse ≠ others ∧
      (ofList 0 others).digest = (ofList 1 others.reverse).digest := by
  let zero : NoteValue := .literal (.float .positiveZero)
  let negative : NoteValue := .literal (.float ⟨0x8000000000000000⟩)
  let yes : NoteValue := .literal (.bool true)
  let pairs := [("z", zero), ("a", yes), ("z", negative)]
  let others := [("z", zero), ("a", yes)]
  obtain ⟨hsame, -⟩ := listing_agrees_with_setting 0 1 pairs
  obtain ⟨-, -, -, hperm⟩ := listing_agrees_with_setting 0 1 others
  obtain ⟨hequal, hdigest⟩ := hperm 1 others.reverse (List.reverse_perm others).symm (by decide)
  exact ⟨pairs, others, by decide, by decide, hsame, hequal, by decide, hdigest⟩

end QueryPlan
