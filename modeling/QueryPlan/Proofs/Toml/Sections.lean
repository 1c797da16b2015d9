import Mathlib.Data.List.Nodup
import QueryPlan.Toml.Basic

/-!
# Documents in sections

A document in sections has a header for each of its tables and below it the entries of the table.
If no name and no key recurs, its statements make up exactly these tables.
-/

namespace QueryPlan.Toml.Entries

variable {key name : String} {value : Value} {entries : Entries}

/-! ## Keys that are not set yet -/

theorem get?_eq_none_iff : entries.get? key = none ↔ key ∉ entries.map (·.1) := by
  simp only [get?, Option.map_eq_none_iff, List.find?_eq_none, decide_eq_true_eq, List.mem_map,
    not_exists, not_and]

theorem get?_append_of_new (hnew : key ∉ entries.map (·.1)) (value : Value) :
    get? (entries ++ [(key, value)]) key = some value := by
  have hnone := get?_eq_none_iff.mpr hnew
  simp only [get?, Option.map_eq_none_iff] at hnone
  simp [get?, List.find?_append, hnone]

theorem put_append_of_new (hnew : key ∉ entries.map (·.1)) (old value : Value) :
    put key value (entries ++ [(key, old)]) = entries ++ [(key, value)] := by
  induction entries with
  | nil => simp [put]
  | cons entry entries ih =>
      obtain ⟨first, firstValue⟩ := entry
      simp only [List.map_cons, List.mem_cons, not_or] at hnew
      rw [List.cons_append, put, if_neg (Ne.symm hnew.1), ih hnew.2, List.cons_append]

theorem set_of_new (hnew : key ∉ entries.map (·.1)) (value : Value) :
    set [key] value entries = some (entries ++ [(key, value)]) := by
  rw [set, get?_eq_none_iff.mpr hnew]

theorem openTable_of_new (hnew : name ∉ entries.map (·.1)) :
    openTable name entries = some (entries ++ [(name, .table .header [])]) := by
  rw [openTable, get?_eq_none_iff.mpr hnew]

/-! ## Sections -/

theorem not_mem_of_nodup_append {keys others : List String}
    (hkeys : (keys ++ key :: others).Nodup) : key ∉ keys := fun hmem =>
  (List.nodup_cons.mp (List.nodup_middle.mp hkeys)).1 (List.mem_append_left others hmem)

/-- The statements of one section. -/
def sectionStatements (part : String × Entries) : List Statement :=
  .header [part.1] :: part.2.map fun (key, value) => .entry [key] value

/-- The table of one section. -/
def sectionTable (part : String × Entries) : String × Value :=
  (part.1, .table .header part.2)

/-- A key is set in the table that was opened last. -/
theorem under_set_of_new (hname : name ∉ entries.map (·.1)) {inner : Entries}
    (hkey : key ∉ inner.map (·.1)) (value : Value) :
    under [name] (set [key] value) (entries ++ [(name, .table .header inner)])
      = some (entries ++ [(name, .table .header (inner ++ [(key, value)]))]) := by
  rw [under, get?_append_of_new hname]
  simp [under, set_of_new hkey, put_append_of_new hname]

theorem add_entries (hname : name ∉ entries.map (·.1)) (inner : Entries) {added : Entries}
    (hkeys : (inner.map (·.1) ++ added.map (·.1)).Nodup) (rest : List Statement) :
    add [name] ((added.map fun (key, value) => .entry [key] value) ++ rest)
        (entries ++ [(name, .table .header inner)])
      = add [name] rest (entries ++ [(name, .table .header (inner ++ added))]) := by
  induction added generalizing inner with
  | nil => simp
  | cons entry added ih =>
      obtain ⟨key, value⟩ := entry
      have hkey : key ∉ inner.map (·.1) := not_mem_of_nodup_append hkeys
      rw [List.map_cons, List.cons_append, add, under_set_of_new hname hkey]
      have hadd := ih (inner ++ [(key, value)]) (by simpa using hkeys)
      simpa using hadd

theorem add_section {part : String × Entries} (hname : part.1 ∉ entries.map (·.1))
    (hkeys : (part.2.map (·.1)).Nodup) (current : List String) (rest : List Statement) :
    add current (sectionStatements part ++ rest) entries
      = add [part.1] rest (entries ++ [sectionTable part]) := by
  have hadd := add_entries hname [] hkeys rest
  simpa [sectionStatements, sectionTable, add, under, openTable_of_new hname] using hadd

theorem add_sections {parts : List (String × Entries)}
    (hnames : (entries.map (·.1) ++ parts.map (·.1)).Nodup)
    (hkeys : ∀ part ∈ parts, (part.2.map (·.1)).Nodup) (current : List String) :
    add current (parts.flatMap sectionStatements) entries
      = some (entries ++ parts.map sectionTable) := by
  induction parts generalizing entries current with
  | nil => simp [add]
  | cons part parts ih =>
      obtain ⟨hfirst, hothers⟩ := List.forall_mem_cons.mp hkeys
      have hname : part.1 ∉ entries.map (·.1) := not_mem_of_nodup_append hnames
      rw [List.flatMap_cons, add_section hname hfirst, ih _ hothers]
      · simp
      · simpa [sectionTable] using hnames

/-- Sections make up their tables. -/
theorem ofStatements?_sections {parts : List (String × Entries)}
    (hnames : (parts.map (·.1)).Nodup) (hkeys : ∀ part ∈ parts, (part.2.map (·.1)).Nodup) :
    ofStatements? (parts.flatMap sectionStatements) = some (parts.map sectionTable) :=
  add_sections (by simpa using hnames) hkeys []

end QueryPlan.Toml.Entries
