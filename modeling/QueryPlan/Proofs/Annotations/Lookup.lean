import Mathlib.Data.List.Sort
import QueryPlan.Proofs.Node.Normal

/-!
# Annotation sets as maps

A well-formed set is known, up to its storage, by what it answers for each name:
it lists exactly the notes that it answers, in the order of their names.
-/

namespace QueryPlan.Annotations

variable [ForeignTypes]

variable {annotations a b : Annotations}

theorem WellFormed.nodup_keys (hannotations : annotations.WellFormed) :
    (annotations.entries.map (·.1)).Nodup :=
  List.pairwise_map.mpr (hannotations.sorted.imp ne_of_lt)

theorem WellFormed.mem_entries_iff (hannotations : annotations.WellFormed)
    {name : String} {note : Note} :
    (name, note) ∈ annotations.entries ↔
      note.name = name ∧ annotations.get? name = some note.value := by
  constructor
  · intro hmem
    refine ⟨(hannotations.keyed _ hmem).symm, ?_⟩
    obtain ⟨found, hfind⟩ : ∃ found,
        annotations.entries.find? (·.1 = name) = some found :=
      Option.isSome_iff_exists.mp
        (List.find?_isSome.mpr ⟨_, hmem, decide_eq_true rfl⟩)
    have hkey : found.1 = name := by
      simpa using List.find?_some hfind
    have heq : found = (name, note) :=
      List.inj_on_of_nodup_map hannotations.nodup_keys
        (List.mem_of_find?_eq_some hfind) hmem hkey
    rw [get?, hfind, heq, Option.map_some]
  · rintro ⟨hname, hget⟩
    obtain ⟨found, hfind, hvalue⟩ := Option.map_eq_some_iff.mp hget
    have hmem := List.mem_of_find?_eq_some hfind
    have hkey : found.1 = name := by
      simpa using List.find?_some hfind
    have hnote : found.2 = note := by
      have hkeyed := hannotations.keyed _ hmem
      cases hfound : found.2
      cases note
      simp_all
    rwa [← hkey, ← hnote]

theorem WellFormed.mem_notes_iff (hannotations : annotations.WellFormed) {note : Note} :
    note ∈ annotations.notes ↔ annotations.get? note.name = some note.value := by
  constructor
  · intro hnote
    obtain ⟨entry, hentry, rfl⟩ := List.mem_map.mp hnote
    have hget := (hannotations.mem_entries_iff.mp hentry).2
    rwa [hannotations.keyed entry hentry] at hget
  · intro hget
    exact List.mem_map_of_mem (hannotations.mem_entries_iff.mpr ⟨rfl, hget⟩)

/-- Two sets list the same exactly when they answer the same. -/
theorem WellFormed.entries_eq_iff (ha : a.WellFormed) (hb : b.WellFormed) :
    a.entries = b.entries ↔ ∀ name, a.get? name = b.get? name := by
  constructor
  · intro heq name
    rw [get?, get?, heq]
  · intro hget
    have hmem : ∀ entry, entry ∈ a.entries ↔ entry ∈ b.entries := by
      rintro ⟨name, note⟩
      rw [ha.mem_entries_iff, hb.mem_entries_iff, hget]
    have hperm : a.entries.Perm b.entries :=
      (List.perm_ext_iff_of_nodup ha.nodup_keys.of_map hb.nodup_keys.of_map).mpr hmem
    exact hperm.eq_of_pairwise (fun _ _ _ _ hlt hgt => absurd hgt (lt_asymm hlt))
      ha.sorted hb.sorted

theorem get?_normal (annotations : Annotations) (name : String) :
    annotations.normal.get? name = (annotations.get? name).map NoteValue.normal := by
  simp [get?, normal, List.find?_map, Function.comp_def, Note.normal]

theorem WellFormed.normal_eq_iff_get?_eq (ha : a.WellFormed) (hb : b.WellFormed) :
    a.normal = b.normal ↔ ∀ name,
      (a.get? name).map NoteValue.normal = (b.get? name).map NoteValue.normal := by
  simp only [← get?_normal]
  rw [← ha.normal.entries_eq_iff hb.normal]
  constructor
  · exact congrArg entries
  · intro hentries
    apply (ha.normal_eq_iff hb).mpr
    rw [← notes_normal, ← notes_normal, notes, notes, hentries]

end QueryPlan.Annotations
