import Mathlib.Data.Set.Card
import QueryPlan.Proofs.Annotations.Hints
import QueryPlan.Proofs.Annotations.Lookup
import QueryPlan.Proofs.Text.ByteOrder

/-!
# Annotation sets are extensional

Annotation sets are built from the empty set and from lists of notes by setting names.  Each
set that is stored anew has a storage of its own, so that sets with one storage are one set.
Two sets are then equal exactly when they answer equal values for every name.

Equal values need not be written alike, so a set keeps the value that it has when it is given
an equal one.  What a set answers after a name was set is known up to this equality.
-/

namespace QueryPlan

section

variable [ForeignTypes]

open ForeignTypes (LawfulEqual)

/-- Answers that are both absent, or equal values. -/
theorem NoteValue.rel_same_iff [LawfulEqual] {a? b? : Option NoteValue} :
    Option.Rel (fun a b => a.same b = true) a? b? ↔ a?.map normal = b?.map normal := by
  cases a? <;> cases b? <;> simp [same_iff_normal_eq]

namespace Annotations

/-! ## Look-ups -/

variable {annotations a b : Annotations}

theorem find?_putEntry (key : String) (note : Note) (entries : List (String × Note))
    (name : String) :
    (putEntry key note entries).find? (·.1 = name) =
      if key = name then some (key, note) else entries.find? (·.1 = name) := by
  induction entries with
  | nil => by_cases hname : key = name <;> simp [putEntry, hname]
  | cons first rest ih =>
      obtain ⟨first, firstNote⟩ := first
      by_cases hfirst : first = name <;> simp only [putEntry] <;> split_ifs <;> simp_all

theorem has_iff {name : String} {value : NoteValue} :
    a.has name value = true ↔ ∃ found, a.get? name = some found ∧ found.same value = true :=
  Option.any_eq_true _ _

theorem get?_set (annotations : Annotations) (fresh : Handle) (name : String)
    (value : NoteValue) (other : String) :
    (annotations.set fresh name value).get? other =
      if name = other ∧ annotations.has name value = false then some value
      else annotations.get? other := by
  unfold set
  cases hhas : annotations.has name value with
  | true => simp
  | false =>
      rw [if_neg Bool.false_ne_true, get?, putNote, find?_putEntry, get?]
      by_cases hname : name = other <;> simp [hname]

/-- Up to equality a set answers the value that was set last. -/
theorem normal_get?_set (annotations : Annotations) (fresh : Handle) (name : String)
    (value : NoteValue) (other : String) :
    ((annotations.set fresh name value).get? other).map NoteValue.normal =
      if name = other then some value.normal
      else (annotations.get? other).map NoteValue.normal := by
  rw [get?_set]
  by_cases hname : name = other
  · subst hname
    cases hhas : annotations.has name value with
    | false => simp
    | true =>
        obtain ⟨found, hfound, hsame⟩ := has_iff.mp hhas
        simp [hfound, NoteValue.normal_eq_of_same hsame]
  · simp [hname]

theorem WellFormed.sameAll_iff [LawfulEqual] (ha : a.WellFormed) (hb : b.WellFormed) :
    Note.sameAll a.notes b.notes = true ↔ ∀ name,
      (a.get? name).map NoteValue.normal = (b.get? name).map NoteValue.normal := by
  rw [Note.sameAll_iff_normal_eq, ← ha.normal_eq_iff hb, ha.normal_eq_iff_get?_eq hb]

/-- Sets that answer equal values are equal, whatever their storages. -/
theorem WellFormed.same_of_get? [LawfulEqual] (ha : a.WellFormed) (hb : b.WellFormed)
    (hget : ∀ name, (a.get? name).map NoteValue.normal = (b.get? name).map NoteValue.normal) :
    a.same b = true := by
  rw [same, (ha.sameAll_iff hb).mpr hget, Bool.or_true]

theorem isSome_get?_iff (name : String) :
    (a.get? name).isSome ↔ name ∈ a.entries.map (·.1) := by
  simp [get?]

/-- The names that are answered are as many as the entries. -/
theorem WellFormed.encard_names (ha : a.WellFormed) :
    {name | (a.get? name).isSome}.encard = a.size := by
  have hnames : {name | (a.get? name).isSome} = ((a.entries.map (·.1)).toFinset : Set String) := by
    ext name
    rw [Set.mem_ofPred_eq, isSome_get?_iff, List.coe_toFinset, Set.mem_ofPred_eq]
  rw [hnames, Set.encard_coe_eq_coe_finsetCard, List.toFinset_card_of_nodup ha.nodup_keys,
    List.length_map, size]

/-- The names stand in the order of their bytes. -/
theorem WellFormed.pairwise_names (ha : a.WellFormed) :
    (a.notes.map fun note => Text.bytes note.name).Pairwise (· < ·) := by
  have hsorted : a.entries.Pairwise fun entry later => entry.2.name < later.2.name := by
    refine ha.sorted.imp_of_mem fun hentry hlater hlt => ?_
    rwa [← ha.keyed _ hentry, ← ha.keyed _ hlater]
  rw [notes, List.map_map, List.pairwise_map]
  exact hsorted.imp Text.bytes_lt_of_lt

/-! ## Sets that are built -/

/-- Sets that were built one after the other, where the handles from `next` on were not given
out yet.  Handles may be given out elsewhere. -/
inductive Built : Handle → List Annotations → Prop
  | start (next : Handle) : Built next []
  | skip {next later : Handle} {held : List Annotations} :
      Built next held → next ≤ later → Built later held
  | empty {next : Handle} {held : List Annotations} :
      Built next held → Built next (.empty :: held)
  | ofList {next : Handle} {held : List Annotations} (pairs : List (String × NoteValue)) :
      Built next held → Built (next + 1) (.ofList next pairs :: held)
  | set {next : Handle} {held : List Annotations} {annotations : Annotations} (name : String)
      (value : NoteValue) :
      Built next held → annotations ∈ held →
      Built (next + 1) (annotations.set next name value :: held)

/-- Sets of which no two different ones share a storage. -/
structure Separate (next : Handle) (held : List Annotations) : Prop where
  wellFormed : ∀ a ∈ held, a.WellFormed
  bounded : ∀ a ∈ held, ∀ storage, a.storage = some storage → storage < next
  coherent : ∀ a ∈ held, ∀ b ∈ held, a.storage = b.storage → a = b

namespace Separate

variable {next : Handle} {held : List Annotations}

theorem mono {later : Handle} (hheld : Separate next held) (hlater : next ≤ later) :
    Separate later held :=
  { hheld with
    bounded := fun a ha storage hstorage =>
      lt_of_lt_of_le (hheld.bounded a ha storage hstorage) hlater }

theorem cons_of_mem (hheld : Separate next held) (ha : a ∈ held) : Separate next (a :: held) := by
  have hmem : ∀ b ∈ a :: held, b ∈ held := by simpa using ha
  exact ⟨fun b hb => hheld.wellFormed b (hmem b hb), fun b hb => hheld.bounded b (hmem b hb),
    fun b hb c hc => hheld.coherent b (hmem b hb) c (hmem c hc)⟩

/-- A set that has no storage, or one that is new. -/
theorem cons_of_new {later : Handle} (hheld : Separate next held) (hlater : next ≤ later)
    (hwell : a.WellFormed)
    (hnew : ∀ storage, a.storage = some storage → next ≤ storage ∧ storage < later) :
    Separate later (a :: held) := by
  have hapart : ∀ b ∈ held, a.storage = b.storage → a = b := by
    intro b hb hshared
    cases hstorage : a.storage with
    | none =>
        rw [hwell.eq_empty_of_storage hstorage,
          (hheld.wellFormed b hb).eq_empty_of_storage (hshared.symm.trans hstorage)]
    | some storage =>
        have hold := hheld.bounded b hb storage (hshared.symm.trans hstorage)
        exact absurd (hnew storage hstorage).1 (Nat.not_le.mpr hold)
  constructor
  · exact List.forall_mem_cons.mpr ⟨hwell, hheld.wellFormed⟩
  · exact List.forall_mem_cons.mpr
      ⟨fun storage hstorage => (hnew storage hstorage).2, (hheld.mono hlater).bounded⟩
  · intro b hb c hc hshared
    rcases List.mem_cons.mp hb with rfl | hold
    · rcases List.mem_cons.mp hc with rfl | hother
      · rfl
      · exact hapart c hother hshared
    · rcases List.mem_cons.mp hc with rfl | hother
      · exact (hapart b hold hshared.symm).symm
      · exact hheld.coherent b hold c hother hshared

end Separate

theorem storage_ofList (fresh : Handle) (pairs : List (String × NoteValue)) {storage : Handle}
    (hstorage : (ofList fresh pairs).storage = some storage) : storage = fresh := by
  unfold ofList at hstorage
  split at hstorage
  · cases hstorage
  · exact (Option.some.inj hstorage).symm

/-- Handles are not used twice, so sets are kept apart by their storages. -/
theorem Built.separate {next : Handle} {held : List Annotations} (hbuilt : Built next held) :
    Separate next held := by
  induction hbuilt with
  | start next => exact ⟨by simp, by simp, by simp⟩
  | skip _ hlater ih => exact ih.mono hlater
  | empty _ ih => exact ih.cons_of_new (le_refl _) wellFormed_empty (by simp [Annotations.empty])
  | @ofList next held pairs _ ih =>
      refine ih.cons_of_new (Nat.le_succ next) (wellFormed_ofList next pairs) ?_
      intro storage hstorage
      rw [storage_ofList next pairs hstorage]
      exact ⟨le_refl next, Nat.lt_succ_self next⟩
  | @set next held annotations name value _ hmem ih =>
      have hwell := (ih.wellFormed annotations hmem).set next name value
      cases hhas : annotations.has name value with
      | true =>
          have hkept : annotations.set next name value = annotations := if_pos hhas
          rw [hkept]
          exact (ih.mono (Nat.le_succ next)).cons_of_mem hmem
      | false =>
          refine ih.cons_of_new (Nat.le_succ next) hwell ?_
          intro storage hstorage
          rw [Annotations.set, hhas] at hstorage
          obtain rfl := Option.some.inj hstorage
          exact ⟨le_refl _, Nat.lt_succ_self _⟩

/-! ## Equality and sharing -/

theorem Separate.same_iff [LawfulEqual] {next : Handle} {held : List Annotations}
    (hheld : Separate next held) (ha : a ∈ held) (hb : b ∈ held) :
    a.same b = true ↔ ∀ name,
      Option.Rel (fun v w => v.same w = true) (a.get? name) (b.get? name) := by
  simp only [NoteValue.rel_same_iff]
  have hwell := hheld.wellFormed a ha
  have hwell' := hheld.wellFormed b hb
  constructor
  · intro hsame
    rcases Bool.or_eq_true _ _ ▸ hsame with hshares | hnotes
    · rw [hheld.coherent a ha b hb (by simpa [shares] using hshares)]
      exact fun _ => rfl
    · exact (hwell.sameAll_iff hwell').mp hnotes
  · exact hwell.same_of_get? hwell'

theorem Separate.shares_set_iff {next : Handle} {held : List Annotations}
    (hheld : Separate next held) (ha : a ∈ held) {fresh : Handle} (hfresh : next ≤ fresh)
    (name : String) (value : NoteValue) :
    (a.set fresh name value).shares a = true ↔
      ∃ found, a.get? name = some found ∧ found.same value = true := by
  rw [← has_iff]
  unfold set
  cases hhas : a.has name value with
  | true => simp [shares]
  | false =>
      have hnew : a.storage ≠ some fresh := fun hstorage =>
        absurd (hheld.bounded a ha fresh hstorage) (Nat.not_lt.mpr hfresh)
      simpa [shares] using hnew.symm

theorem exists_get?_set [LawfulEqual] (a : Annotations) (fresh : Handle) (name : String)
    (value : NoteValue) :
    ∃ kept, (a.set fresh name value).get? name = some kept ∧ kept.same value = true := by
  have hkept := normal_get?_set a fresh name value name
  rw [if_pos rfl] at hkept
  obtain ⟨kept, hget, hnormal⟩ := Option.map_eq_some_iff.mp hkept
  exact ⟨kept, hget, (NoteValue.same_iff_normal_eq kept value).mpr hnormal⟩

/-- Setting two different names, in either order and under any handles. -/
theorem WellFormed.set_comm [LawfulEqual] (ha : a.WellFormed) (first second third fourth : Handle)
    {name other : String} (hother : other ≠ name) (v w : NoteValue) :
    ((a.set first name v).set second other w).same
      ((a.set third other w).set fourth name v) = true := by
  apply ((ha.set first name v).set second other w).same_of_get?
    ((ha.set third other w).set fourth name v)
  intro key
  simp only [normal_get?_set]
  split_ifs <;> simp_all

/-- Of two values of a name the later one counts. -/
theorem WellFormed.set_set [LawfulEqual] (ha : a.WellFormed) (first second third : Handle)
    (name : String) (v w : NoteValue) :
    ((a.set first name v).set second name w).same (a.set third name w) = true := by
  apply ((ha.set first name v).set second name w).same_of_get? (ha.set third name w)
  intro key
  simp only [normal_get?_set]
  split_ifs <;> rfl

end Annotations

open Annotations

/-- Annotation sets that were built in any way are finite maps.  Their names stand in strictly
increasing order of the bytes, and are those that are answered; two sets are equal exactly when
they answer equal values, or nothing, for every name.  Setting a name answers an equal value for
it and leaves the answers for all others; the storage is shared exactly when an equal value was
there.  Setting two names commutes, and of two values of one name the later one counts. -/
theorem annotation_sets_are_finite_maps [LawfulEqual] {next : Handle} {held : List Annotations}
    (hbuilt : Built next held) {a b : Annotations} (ha : a ∈ held) (hb : b ∈ held) :
    (a.notes.map fun note => Text.bytes note.name).Pairwise (· < ·) ∧
    {name | (a.get? name).isSome}.encard = a.size ∧
    (a.same b = true ↔ ∀ name,
      Option.Rel (fun v w => v.same w = true) (a.get? name) (b.get? name)) ∧
    (∀ fresh name value, next ≤ fresh →
      (∃ kept, (a.set fresh name value).get? name = some kept ∧ kept.same value = true) ∧
      (∀ other, other ≠ name → (a.set fresh name value).get? other = a.get? other) ∧
      ((a.set fresh name value).shares a = true ↔
        ∃ found, a.get? name = some found ∧ found.same value = true)) ∧
    (∀ (first second third fourth : Handle) (name other : String) (v w : NoteValue),
      other ≠ name →
      ((a.set first name v).set second other w).same
        ((a.set third other w).set fourth name v) = true) ∧
    ∀ (first second third : Handle) (name : String) (v w : NoteValue),
      ((a.set first name v).set second name w).same (a.set third name w) = true := by
  have hheld := hbuilt.separate
  have hwell := hheld.wellFormed a ha
  refine ⟨hwell.pairwise_names, hwell.encard_names, hheld.same_iff ha hb, ?_, ?_, hwell.set_set⟩
  · intro fresh name value hfresh
    refine ⟨exists_get?_set a fresh name value, ?_, hheld.shares_set_iff ha hfresh name value⟩
    intro other hother
    rw [get?_set, if_neg fun hname => hother hname.1.symm]
  · intro first second third fourth name other v w hother
    exact hwell.set_comm first second third fourth hother v w

end

open Annotations
open scoped Hints

/-- A zero and something that is no number, once set by name and once listed with another sign
and other bits.  The sets are equal and are written differently. -/
theorem annotation_sets_are_finite_maps_zeros :
    ∃ (next : Handle) (held : List Annotations) (a b : Annotations) (zero negative : NoteValue),
      Built next held ∧ a ∈ held ∧ b ∈ held ∧
      a.notes.map (·.name) = ["z", "ä"] ∧ a.text ≠ b.text ∧ a.shares b = false ∧
      (a.notes.map fun note => Text.bytes note.name).Pairwise (· < ·) ∧
      {name | (a.get? name).isSome}.encard = 2 ∧
      (∀ name, Option.Rel (fun v w => v.same w = true) (a.get? name) (b.get? name)) ∧
      (a.set next "z" negative).shares a = true ∧
      (a.set next "z" negative).get? "z" = some zero ∧ zero ≠ negative ∧
      ((a.set next "z" negative).set next "y" zero).same
        ((a.set next "y" zero).set next "z" negative) = true := by
  let zero : NoteValue := .literal (.float .positiveZero)
  let negative : NoteValue := .literal (.float ⟨0x8000000000000000⟩)
  let nan : NoteValue := .literal (.float .quietNaN)
  let payload : NoteValue := .literal (.float ⟨0x7ff8000000000001⟩)
  let single := Annotations.empty.set 0 "z" zero
  let a := single.set 1 "ä" nan
  let b := ofList 2 [("ä", payload), ("z", negative)]
  have hsingle : Built 1 [single, .empty] := .set "z" zero (.empty (.start 0)) List.mem_cons_self
  have ha : Built 2 [a, single, .empty] := .set "ä" nan hsingle List.mem_cons_self
  have hb : Built 3 [b, a, single, .empty] := .ofList _ ha
  have hmem : a ∈ [b, a, single, .empty] := by simp
  obtain ⟨hnames, hsize, hequal, hset, hcomm, -⟩ :=
    annotation_sets_are_finite_maps hb hmem List.mem_cons_self
  obtain ⟨-, -, hshares⟩ := hset 3 "z" negative (Nat.le_refl 3)
  have hcount : a.size = 2 := by decide
  rw [hcount, Nat.cast_ofNat] at hsize
  exact ⟨3, _, a, b, zero, negative, hb, hmem, List.mem_cons_self, by decide, by decide,
    by decide, hnames, hsize, hequal.mp (by decide), hshares.mpr ⟨zero, by decide, by decide⟩,
    by decide, by decide, hcomm 3 3 3 3 "z" "y" negative zero (by decide)⟩

end QueryPlan
