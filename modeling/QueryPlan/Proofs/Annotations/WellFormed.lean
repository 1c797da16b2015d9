import QueryPlan.Annotations.Basic
import Mathlib.Data.String.Basic

/-!
# Well-formed annotation sets

The entries of a set are strictly sorted by key, every note stands under its
own name, and a set has a storage exactly when it has an entry.  Setting an
annotation keeps all of this.
-/

namespace QueryPlan.Annotations

variable [ForeignTypes]

structure WellFormed (annotations : Annotations) : Prop where
  sorted : annotations.entries.Pairwise (fun entry later => entry.1 < later.1)
  keyed : ∀ entry ∈ annotations.entries, entry.1 = entry.2.name
  allocated : annotations.storage.isSome ↔ annotations.entries ≠ []

theorem wellFormed_empty : empty.WellFormed where
  sorted := List.Pairwise.nil
  keyed := by simp [empty]
  allocated := by simp [empty]

theorem putEntry_ne_nil (key : String) (note : Note)
    (entries : List (String × Note)) : putEntry key note entries ≠ [] := by
  cases entries with
  | nil => simp [putEntry]
  | cons first rest =>
      simp only [putEntry]
      split
      · simp
      · split <;> simp

theorem eq_or_mem_of_mem_putEntry {key : String} {note : Note}
    {entries : List (String × Note)} {entry : String × Note}
    (hentry : entry ∈ putEntry key note entries) :
    entry = (key, note) ∨ entry ∈ entries := by
  induction entries with
  | nil => simpa [putEntry] using hentry
  | cons first rest ih =>
      simp only [putEntry] at hentry
      split at hentry
      · simpa using hentry
      · split at hentry
        · rename_i hkey
          rcases List.mem_cons.mp hentry with rfl | hentry
          · exact .inl (by rw [hkey])
          · exact .inr (List.mem_cons_of_mem first hentry)
        · rcases List.mem_cons.mp hentry with rfl | hentry
          · exact .inr List.mem_cons_self
          · exact (ih hentry).imp id (List.mem_cons_of_mem first)

theorem sorted_putEntry {entries : List (String × Note)}
    (hsorted : entries.Pairwise (fun entry later => entry.1 < later.1))
    (key : String) (note : Note) :
    (putEntry key note entries).Pairwise
      (fun entry later => entry.1 < later.1) := by
  induction entries with
  | nil => simp [putEntry]
  | cons first rest ih =>
      obtain ⟨hfirst, hrest⟩ := List.pairwise_cons.mp hsorted
      simp only [putEntry]
      split
      · rename_i hbefore
        refine List.pairwise_cons.mpr ⟨?_, hsorted⟩
        intro later hlater
        rcases List.mem_cons.mp hlater with rfl | hlater
        · exact hbefore
        · exact lt_trans hbefore (hfirst later hlater)
      · split
        · exact List.pairwise_cons.mpr ⟨hfirst, hrest⟩
        · rename_i hbefore hkey
          refine List.pairwise_cons.mpr ⟨?_, ih hrest⟩
          intro later hlater
          rcases eq_or_mem_of_mem_putEntry hlater with rfl | hlater
          · exact lt_of_le_of_ne (not_lt.mp hbefore) (Ne.symm hkey)
          · exact hfirst later hlater

theorem WellFormed.eq_empty {annotations : Annotations} (hwell : annotations.WellFormed)
    (hempty : annotations.isEmpty = true) : annotations = empty := by
  obtain ⟨storage, entries⟩ := annotations
  obtain rfl : entries = [] := by simpa [isEmpty, size] using hempty
  obtain rfl : storage = none := by simpa using hwell.allocated
  rfl

theorem WellFormed.eq_empty_of_storage {annotations : Annotations}
    (hwell : annotations.WellFormed) (hstorage : annotations.storage = none) :
    annotations = empty := by
  obtain ⟨storage, entries⟩ := annotations
  obtain rfl : storage = none := hstorage
  obtain rfl : entries = [] := by simpa using hwell.allocated
  rfl

/-- Storing a note anew. -/
theorem WellFormed.put {annotations : Annotations} (hannotations : annotations.WellFormed)
    (handle : Handle) (note : Note) :
    (Annotations.mk (some handle) (putNote note annotations.entries)).WellFormed where
  sorted := sorted_putEntry hannotations.sorted note.name note
  keyed entry hentry := by
    rcases eq_or_mem_of_mem_putEntry hentry with rfl | hentry
    · rfl
    · exact hannotations.keyed entry hentry
  allocated := by simpa [putNote] using putEntry_ne_nil note.name note annotations.entries

theorem WellFormed.set {annotations : Annotations}
    (hannotations : annotations.WellFormed) (handle : Handle) (name : String)
    (value : NoteValue) : (annotations.set handle name value).WellFormed := by
  unfold Annotations.set
  split
  · exact hannotations
  · exact hannotations.put handle ⟨name, value⟩

theorem wellFormed_ofList (handle : Handle) (pairs : List (String × NoteValue)) :
    (ofList handle pairs).WellFormed := by
  cases pairs with
  | nil => exact wellFormed_empty
  | cons first rest =>
      have hfold : ∀ (pairs : List (String × NoteValue)) (entries : List (String × Note)),
          (Annotations.mk (some handle) entries).WellFormed →
          (Annotations.mk (some handle) (pairs.foldl
            (fun entries pair => putNote ⟨pair.1, pair.2⟩ entries) entries)).WellFormed := by
        intro pairs
        induction pairs with
        | nil => exact fun _ hentries => hentries
        | cons pair pairs ih => exact fun _ hentries => ih _ (hentries.put handle ⟨pair.1, pair.2⟩)
      exact hfold rest _ (wellFormed_empty.put handle ⟨first.1, first.2⟩)

end QueryPlan.Annotations
