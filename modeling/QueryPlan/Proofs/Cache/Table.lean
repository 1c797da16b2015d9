import QueryPlan.Cache.Table

/-!
# Tables that are maps

A table of plans is trusted to be a map of its keys, provided that their
equality is an equivalence which their digests respect.  It may drop entries
when it is full or when they have become old; `intact` is said of the tables
that have not, and nothing is asked of the others.

The list of entries is such a map, and always intact.
-/

namespace QueryPlan

variable [ForeignTypes]

/-- Keys whose equality is an equivalence that digests respect. -/
structure Consistent (keys : Node → Prop) : Prop where
  refl : ∀ key, keys key → key.same key = true
  symm : ∀ a b, keys a → keys b → a.same b = true → b.same a = true
  trans : ∀ a b c, keys a → keys b → keys c →
    a.same b = true → b.same c = true → a.same c = true
  digest : ∀ a b, keys a → keys b → a.same b = true → a.digest = b.digest

theorem Consistent.same_left {keys : Node → Prop} (hkeys : Consistent keys)
    {a b other : Node} (ha : keys a) (hb : keys b) (hother : keys other)
    (hsame : a.same b = true) : a.same other = b.same other := by
  rw [Bool.eq_iff_iff]
  constructor
  · exact hkeys.trans b a other hb ha hother (hkeys.symm a b ha hb hsame)
  · exact hkeys.trans a b other ha hb hother hsame

theorem Consistent.same_of_meet {keys : Node → Prop} (hkeys : Consistent keys)
    {a b other : Node} (ha : keys a) (hb : keys b) (hother : keys other)
    (hsame : a.same other = true) (hsame' : b.same other = true) :
    a.same b = true :=
  hkeys.trans a other b ha hother hb hsame (hkeys.symm b other hb hother hsame')

namespace PlanTable

variable {T V : Type} [PlanTable T V]

/-- The tables that come about from some keys while nothing is dropped. -/
inductive Filled (keys : Node → Prop) (intact : T → Prop) : T → Prop
  | build {settings : CacheSettings} :
      intact (build settings) → Filled keys intact (build settings)
  | put {table : T} {key : Node} {value : V} :
      Filled keys intact table → keys key → intact (put table key value) →
      Filled keys intact (put table key value)
  | erase {table : T} {key : Node} :
      Filled keys intact table → keys key → intact (erase table key) →
      Filled keys intact (erase table key)
  | clear {table : T} :
      Filled keys intact table → intact (clear table) →
      Filled keys intact (clear table)

/-- The laws of a map, for the tables in which nothing was dropped. -/
structure IsMap (keys : Node → Prop) (intact : T → Prop) : Prop where
  find?_build : ∀ (settings : CacheSettings) (key : Node),
    intact (build settings) → keys key → find? (build settings : T) key = none
  count_build : ∀ settings : CacheSettings,
    intact (build settings) → count (build settings : T) = 0
  find?_put : ∀ (table : T) (key : Node) (value : V) (other : Node),
    Filled keys intact table → intact (put table key value) → keys key → keys other →
    find? (put table key value) other =
      if key.same other then some value else find? table other
  count_put : ∀ (table : T) (key : Node) (value : V),
    Filled keys intact table → intact (put table key value) → keys key →
    count (put table key value) =
      if (find? table key).isSome then count table else count table + 1
  find?_erase : ∀ (table : T) (key other : Node),
    Filled keys intact table → intact (erase table key) → keys key → keys other →
    find? (erase table key) other =
      if key.same other then none else find? table other
  count_erase : ∀ (table : T) (key : Node),
    Filled keys intact table → intact (erase table key) → keys key →
    count (erase table key) =
      if (find? table key).isSome then count table - 1 else count table
  find?_clear : ∀ (table : T) (key : Node),
    Filled keys intact table → intact (clear table) → keys key →
    find? (clear table) key = none
  count_clear : ∀ table : T,
    Filled keys intact table → intact (clear table) → count (clear table) = 0

/-- What a table promises: to be a map of any keys with which it can work. -/
def Lawful (intact : T → Prop) : Prop :=
  ∀ keys : Node → Prop, Consistent keys → IsMap keys intact

end PlanTable

/-! ## The list of entries -/

namespace PlanEntries

open PlanTable

variable {V : Type} {keys : Node → Prop} {key other : Node}

/-- All keys are from a given set, and differ pairwise. -/
structure Distinct (keys : Node → Prop) (entries : PlanEntries V) : Prop where
  keys : ∀ entry ∈ entries, keys entry.1
  differ : entries.Pairwise fun a b => a.1.same b.1 = false

theorem answers_eq (hkeys : Consistent keys) (hkey : keys key) {entry : Node × V}
    (hentry : keys entry.1) : answers key entry = entry.1.same key := by
  cases hsame : entry.1.same key with
  | false => simp [answers, hsame]
  | true => simp [answers, hsame, hkeys.digest _ _ hentry hkey hsame]

theorem Distinct.nil : Distinct keys ([] : PlanEntries V) :=
  ⟨by simp, .nil⟩

theorem Distinct.of_cons {entry : Node × V} {entries : PlanEntries V}
    (hentries : Distinct keys (entry :: entries)) : Distinct keys entries :=
  ⟨fun other hother => hentries.keys other (List.mem_cons_of_mem _ hother),
    (List.pairwise_cons.mp hentries.differ).2⟩

theorem Distinct.find?_cons (hkeys : Consistent keys) (hkey : keys key)
    {entry : Node × V} {entries : PlanEntries V}
    (hentries : Distinct keys (entry :: entries)) :
    find? (entry :: entries) key =
      if entry.1.same key then some entry.2 else find? entries key := by
  have hanswers := answers_eq hkeys hkey (hentries.keys entry List.mem_cons_self)
  cases hsame : entry.1.same key <;>
    simp [find?, hanswers, hsame]

/-- The first key of a list is not in the rest of it. -/
theorem Distinct.find?_rest (hkeys : Consistent keys) (hkey : keys key)
    {entry : Node × V} {entries : PlanEntries V}
    (hentries : Distinct keys (entry :: entries)) (hsame : entry.1.same key = true) :
    find? entries key = none := by
  rw [find?, Option.map_eq_none_iff, List.find?_eq_none]
  intro later hlater hanswer
  have hfirst := hentries.keys entry List.mem_cons_self
  have hrest := hentries.keys later (List.mem_cons_of_mem _ hlater)
  rw [answers_eq hkeys hkey hrest] at hanswer
  have hdiffer := (List.pairwise_cons.mp hentries.differ).1 later hlater
  rw [hkeys.same_left hfirst hkey hrest hsame,
    hkeys.symm _ _ hrest hkey hanswer] at hdiffer
  contradiction

theorem mem_put {value : V} {entries : PlanEntries V} {entry : Node × V}
    (hentry : entry ∈ put key value entries) :
    entry.1 = key ∨ ∃ old ∈ entries, entry.1 = old.1 := by
  induction entries with
  | nil =>
      rw [List.mem_singleton.mp hentry]
      exact .inl rfl
  | cons first rest ih =>
      rw [put] at hentry
      split at hentry
      · rcases List.mem_cons.mp hentry with rfl | hrest
        · exact .inr ⟨first, List.mem_cons_self, rfl⟩
        · exact .inr ⟨entry, List.mem_cons_of_mem _ hrest, rfl⟩
      · rcases List.mem_cons.mp hentry with rfl | hrest
        · exact .inr ⟨entry, List.mem_cons_self, rfl⟩
        · rcases ih hrest with hkey | ⟨old, hold, heq⟩
          · exact .inl hkey
          · exact .inr ⟨old, List.mem_cons_of_mem _ hold, heq⟩

theorem Distinct.put (hkeys : Consistent keys) (hkey : keys key) {entries : PlanEntries V}
    (hentries : Distinct keys entries) (value : V) :
    Distinct keys (put key value entries) := by
  constructor
  · intro entry hentry
    rcases mem_put hentry with heq | ⟨old, hold, heq⟩
    · rwa [heq]
    · rw [heq]
      exact hentries.keys old hold
  · induction entries with
    | nil => exact List.pairwise_singleton _ _
    | cons first rest ih =>
        have hfirst := hentries.keys first List.mem_cons_self
        have hdiffer := List.pairwise_cons.mp hentries.differ
        rw [PlanEntries.put, answers_eq hkeys hkey hfirst]
        split
        · exact List.pairwise_cons.mpr hdiffer
        · rename_i hsame
          refine List.pairwise_cons.mpr ⟨?_, ih hentries.of_cons⟩
          intro entry hentry
          rcases mem_put hentry with heq | ⟨old, hold, heq⟩
          · rw [heq]
            exact Bool.eq_false_iff.mpr hsame
          · rw [heq]
            exact hdiffer.1 old hold

theorem erase_cons (entry : Node × V) (entries : PlanEntries V) (key : Node) :
    erase (entry :: entries) key =
      if answers key entry then erase entries key
      else entry :: erase entries key := by
  cases hanswer : answers key entry <;> simp [erase, hanswer]

theorem Distinct.erase {entries : PlanEntries V} (hentries : Distinct keys entries)
    (key : Node) : Distinct keys (erase entries key) :=
  ⟨fun entry hentry => hentries.keys entry (List.mem_filter.mp hentry).1,
    hentries.differ.filter _⟩

theorem find?_put (hkeys : Consistent keys) (hkey : keys key) (hother : keys other)
    {entries : PlanEntries V} (hentries : Distinct keys entries) (value : V) :
    find? (put key value entries) other =
      if key.same other then some value else find? entries other := by
  have hput := hentries.put hkeys hkey value
  induction entries with
  | nil =>
      rw [put] at hput ⊢
      exact hput.find?_cons hkeys hother
  | cons first rest ih =>
      have hfirst := hentries.keys first List.mem_cons_self
      rw [put, answers_eq hkeys hkey hfirst] at hput ⊢
      split at hput
      · rename_i hsame
        rw [if_pos hsame, hput.find?_cons hkeys hother,
          hentries.find?_cons hkeys hother, hkeys.same_left hfirst hkey hother hsame]
        split <;> rfl
      · rename_i hsame
        rw [if_neg hsame, hput.find?_cons hkeys hother,
          hentries.find?_cons hkeys hother, ih hentries.of_cons hput.of_cons]
        -- A third key that is the same as both would make the two the same.
        by_cases hboth : first.1.same other = true ∧ key.same other = true
        · exact absurd (hkeys.same_of_meet hfirst hkey hother hboth.1 hboth.2) hsame
        · split <;> split <;> simp_all

theorem length_put (hkeys : Consistent keys) (hkey : keys key) {entries : PlanEntries V}
    (hentries : Distinct keys entries) (value : V) :
    (put key value entries).length =
      if (find? entries key).isSome then entries.length else entries.length + 1 := by
  induction entries with
  | nil => rfl
  | cons first rest ih =>
      have hfirst := hentries.keys first List.mem_cons_self
      rw [put, answers_eq hkeys hkey hfirst, hentries.find?_cons hkeys hkey]
      split
      · rfl
      · rw [List.length_cons, ih hentries.of_cons]
        split <;> rfl

theorem find?_erase (hkeys : Consistent keys) (hkey : keys key) (hother : keys other)
    {entries : PlanEntries V} (hentries : Distinct keys entries) :
    find? (erase entries key) other =
      if key.same other then none else find? entries other := by
  induction entries with
  | nil => simp [erase, find?]
  | cons first rest ih =>
      have hfirst := hentries.keys first List.mem_cons_self
      have herase := hentries.erase key
      rw [erase_cons, answers_eq hkeys hkey hfirst] at herase ⊢
      split at herase
      · rename_i hsame
        rw [if_pos hsame, hentries.find?_cons hkeys hother, ih hentries.of_cons,
          hkeys.same_left hfirst hkey hother hsame]
        split <;> rfl
      · rename_i hsame
        rw [if_neg hsame, herase.find?_cons hkeys hother,
          hentries.find?_cons hkeys hother, ih hentries.of_cons]
        by_cases hboth : first.1.same other = true ∧ key.same other = true
        · exact absurd (hkeys.same_of_meet hfirst hkey hother hboth.1 hboth.2) hsame
        · split <;> split <;> simp_all

theorem length_erase (hkeys : Consistent keys) (hkey : keys key) {entries : PlanEntries V}
    (hentries : Distinct keys entries) :
    (erase entries key).length =
      if (find? entries key).isSome then entries.length - 1 else entries.length := by
  induction entries with
  | nil => rfl
  | cons first rest ih =>
      have hfirst := hentries.keys first List.mem_cons_self
      have hrest := ih hentries.of_cons
      rw [erase_cons, hentries.find?_cons hkeys hkey, answers_eq hkeys hkey hfirst]
      split
      · rename_i hsame
        rw [hentries.find?_rest hkeys hkey hsame] at hrest
        simpa using hrest
      · rw [List.length_cons, List.length_cons, hrest]
        split
        · rename_i hfound
          have hne : rest ≠ [] := by
            rintro rfl
            simp [find?] at hfound
          have hpos := List.length_pos_iff.mpr hne
          omega
        · rfl

theorem Distinct.of_filled (hkeys : Consistent keys) {entries : PlanEntries V}
    (hfilled : Filled keys (fun _ => True) entries) : Distinct keys entries := by
  induction hfilled with
  | build _ => exact .nil
  | put _ hkey _ ih => exact ih.put hkeys hkey _
  | erase _ _ _ ih => exact ih.erase _
  | clear _ _ _ => exact .nil

theorem lawful : Lawful fun _ : PlanEntries V => True := by
  intro keys hkeys
  have hdistinct : ∀ entries : PlanEntries V, Filled keys (fun _ => True) entries →
      Distinct keys entries := fun _ => .of_filled hkeys
  constructor
  · exact fun _ _ _ _ => rfl
  · exact fun _ _ => rfl
  · exact fun entries _ value _ hfilled _ hkey hother =>
      find?_put hkeys hkey hother (hdistinct entries hfilled) value
  · exact fun entries _ value hfilled _ hkey =>
      length_put hkeys hkey (hdistinct entries hfilled) value
  · exact fun entries _ _ hfilled _ hkey hother =>
      find?_erase hkeys hkey hother (hdistinct entries hfilled)
  · exact fun entries _ hfilled _ hkey =>
      length_erase hkeys hkey (hdistinct entries hfilled)
  · exact fun _ _ _ _ _ => rfl
  · exact fun _ _ _ => rfl

end PlanEntries

end QueryPlan
