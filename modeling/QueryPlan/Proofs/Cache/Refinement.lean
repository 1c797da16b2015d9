import QueryPlan.Proofs.Annotations.Hints
import QueryPlan.Proofs.Cache.Operations
import QueryPlan.Proofs.Cache.Table
import QueryPlan.Proofs.Session.Digest
import QueryPlan.Proofs.Session.Equivalence

/-!
# Caches as maps of classes

Known plans are sorted into classes, a class for all that are the same.  On a
table that is a map of its keys, a cache answers as a finite map from classes to
values: `Represents` relates the two, each operation keeps it and is answered
alike, so whole runs are.  Keys of one class are therefore as good as each
other, and what is done with other classes leaves the value of a key, whatever
their digests are.
-/

namespace QueryPlan

section

open ForeignTypes (LawfulEqual LawfulDigest)

variable [ForeignTypes] [LawfulEqual]

open Caching PlanTable

variable {session : Session}

/-! ## Classes of known plans -/

/-- The plans that a caller may use as keys. -/
abbrev Session.Key (session : Session) :=
  {node // session.Knows node}

namespace Session.Sound

theorem consistent [LawfulDigest] (hsound : session.Sound) : Consistent session.Knows where
  refl key hkey := hsound.equivalence_same.refl ⟨key, hkey⟩
  symm a b ha hb hsame :=
    hsound.equivalence_same.symm (x := ⟨a, ha⟩) (y := ⟨b, hb⟩) hsame
  trans a b c ha hb hc hab hbc :=
    hsound.equivalence_same.trans (x := ⟨a, ha⟩) (y := ⟨b, hb⟩) (z := ⟨c, hc⟩) hab hbc
  digest a b ha hb hsame := by
    rw [← a.digest_normal, hsound.normal_eq_of_same ha hb hsame, b.digest_normal]

def keySetoid (hsound : session.Sound) : Setoid session.Key :=
  ⟨_, hsound.equivalence_same⟩

abbrev Class (hsound : session.Sound) :=
  Quotient hsound.keySetoid

instance (hsound : session.Sound) : DecidableEq hsound.Class :=
  Quotient.decidableEq (d := fun a b => inferInstanceAs (Decidable (a.1.same b.1 = true)))

def classOf (hsound : session.Sound) (key : session.Key) : hsound.Class :=
  Quotient.mk _ key

/-- The kind that all plans of a class have. -/
def kindOf (hsound : session.Sound) : hsound.Class → Kind :=
  Quotient.lift (·.1.kind) fun a b => hsound.kind_eq a.2 b.2

theorem classOf_eq_iff (hsound : session.Sound) (a b : session.Key) :
    hsound.classOf a = hsound.classOf b ↔ a.1.same b.1 = true :=
  Quotient.eq

end Session.Sound

/-! ## Represented maps -/

variable {T V σ : Type} [PlanTable T V] {intact : T → Prop}

/-- The cache has the entries of a map of classes, and all else in common
with it. -/
structure Represents (hsound : session.Sound) (intact : T → Prop)
    (cached : PlanCacheOn.Session T σ) (map : MapCache hsound.Class V σ) : Prop where
  filled : Filled session.Knows intact cached.cache.table
  find?_eq : ∀ key : session.Key,
    find? cached.cache.table key.1 = map.entries.lookup (hsound.classOf key)
  count_eq : count cached.cache.table = map.entries.keys.card
  stats_eq : cached.cache.stats = map.stats
  journal_eq : cached.journal = map.journal
  own_eq : cached.own = map.own

namespace Represents

variable {hsound : session.Sound} {cached : PlanCacheOn.Session T σ}
  {map : MapCache hsound.Class V σ}

theorem find?_classOf (hrepresents : Represents hsound intact cached map)
    (key : session.Key) :
    cached.cache.find? key.1 = map.entries.lookup (hsound.classOf key) :=
  hrepresents.find?_eq key

theorem put (hlaws : IsMap session.Knows intact)
    (hrepresents : Represents hsound intact cached map) (key : session.Key) (value : V)
    (hintact : intact (PlanTable.put cached.cache.table key.1 value)) :
    Represents hsound intact
      { cached with cache := cached.cache.put key.1 value }
      { map with entries := map.entries.insert (hsound.classOf key) value } := by
  have hfilled := hrepresents.filled
  refine ⟨hfilled.put key.2 hintact, ?_, ?_, hrepresents.stats_eq,
    hrepresents.journal_eq, hrepresents.own_eq⟩
  · intro other
    have hput := hlaws.find?_put _ key.1 value other.1 hfilled hintact key.2 other.2
    rw [hrepresents.find?_eq other] at hput
    refine hput.trans ?_
    split
    · rename_i hsame
      rw [(hsound.classOf_eq_iff key other).mpr hsame, Finmap.lookup_insert]
    · rename_i hsame
      rw [Finmap.lookup_insert_of_ne]
      intro heq
      exact hsame ((hsound.classOf_eq_iff key other).mp heq.symm)
  · have hput := hlaws.count_put _ key.1 value hfilled hintact key.2
    have hkeys : (map.entries.insert (hsound.classOf key) value).keys =
        insert (hsound.classOf key) map.entries.keys := by
      ext other
      simp [Finmap.mem_keys]
    rw [hrepresents.find?_eq key, hrepresents.count_eq] at hput
    refine hput.trans ?_
    rw [hkeys, Finset.card_insert_eq_ite]
    simp [Finmap.lookup_isSome, Finmap.mem_keys]

theorem erase (hlaws : IsMap session.Knows intact)
    (hrepresents : Represents hsound intact cached map) (key : session.Key)
    (hintact : intact (PlanTable.erase cached.cache.table key.1)) :
    Represents hsound intact
      { cached with cache := cached.cache.erase key.1 }
      { map with entries := map.entries.erase (hsound.classOf key) } := by
  have hfilled := hrepresents.filled
  refine ⟨hfilled.erase key.2 hintact, ?_, ?_, hrepresents.stats_eq,
    hrepresents.journal_eq, hrepresents.own_eq⟩
  · intro other
    have herase := hlaws.find?_erase _ key.1 other.1 hfilled hintact key.2 other.2
    rw [hrepresents.find?_eq other] at herase
    refine herase.trans ?_
    split
    · rename_i hsame
      rw [(hsound.classOf_eq_iff key other).mpr hsame, Finmap.lookup_erase]
    · rename_i hsame
      rw [Finmap.lookup_erase_ne]
      intro heq
      exact hsame ((hsound.classOf_eq_iff key other).mp heq.symm)
  · have herase := hlaws.count_erase _ key.1 hfilled hintact key.2
    rw [hrepresents.find?_eq key, hrepresents.count_eq] at herase
    refine herase.trans ?_
    rw [Finmap.keys_erase, Finset.card_erase_eq_ite]
    simp [Finmap.lookup_isSome, Finmap.mem_keys]

theorem clear (hlaws : IsMap session.Knows intact)
    (hrepresents : Represents hsound intact cached map)
    (hintact : intact (PlanTable.clear cached.cache.table)) :
    Represents hsound intact
      { cached with cache := { cached.cache with
          table := PlanTable.clear cached.cache.table
          stats := .zero } }
      { map with entries := ∅, stats := .zero } := by
  have hfilled := hrepresents.filled
  refine ⟨hfilled.clear hintact, ?_, ?_, rfl, hrepresents.journal_eq,
    hrepresents.own_eq⟩
  · intro key
    exact hlaws.find?_clear _ key.1 hfilled hintact key.2
  · exact hlaws.count_clear _ hfilled hintact

theorem counted (hrepresents : Represents hsound intact cached map)
    (change : Statistics → Statistics) :
    Represents hsound intact (Caching.counted cached change) (map.counted change) where
  filled := hrepresents.filled
  find?_eq := hrepresents.find?_eq
  count_eq := hrepresents.count_eq
  stats_eq := congrArg change hrepresents.stats_eq
  journal_eq := hrepresents.journal_eq
  own_eq := hrepresents.own_eq

theorem failed (hrepresents : Represents hsound intact cached map) (own : σ) :
    Represents hsound intact (Caching.failed cached own) (map.failed own) where
  filled := hrepresents.filled
  find?_eq := hrepresents.find?_eq
  count_eq := hrepresents.count_eq
  stats_eq := by rw [Caching.failed, MapCache.failed, hrepresents.stats_eq]
  journal_eq := hrepresents.journal_eq
  own_eq := rfl

theorem computed (hlaws : IsMap session.Knows intact)
    (hrepresents : Represents hsound intact cached map) (key : session.Key) (value : V)
    (own : σ) (hintact : intact (PlanTable.put cached.cache.table key.1 value)) :
    Represents hsound intact (Caching.computed cached key.1 value own)
      (map.computed hsound.kindOf (hsound.classOf key) value own) where
  filled := (hrepresents.put hlaws key value hintact).filled
  find?_eq := (hrepresents.put hlaws key value hintact).find?_eq
  count_eq := (hrepresents.put hlaws key value hintact).count_eq
  stats_eq := by rw [Caching.computed, MapCache.computed, hrepresents.stats_eq]
  journal_eq := congrArg (· ++ [Record.planComputed key.1.kind]) hrepresents.journal_eq
  own_eq := rfl

end Represents

/-- A cache and a map answered alike, and the cache then represents the map. -/
def Matches (hsound : session.Sound) (intact : T → Prop) {α : Type}
    (cached : α × PlanCacheOn.Session T σ) (map : α × MapCache hsound.Class V σ) :
    Prop :=
  cached.1 = map.1 ∧ Represents hsound intact cached.2 map.2

namespace Represents

variable {hsound : session.Sound} {cached : PlanCacheOn.Session T σ}
  {map : MapCache hsound.Class V σ}

theorem get (hrepresents : Represents hsound intact cached map) (key : session.Key) :
    Matches hsound intact
      ((Caching.answer (.on key.1 .get)).run cached)
      ((MapCache.answer hsound.kindOf (.on (hsound.classOf key) .get)).run map) := by
  have hfind := hrepresents.find?_classOf key
  cases hlookup : map.entries.lookup (hsound.classOf key) with
  | some value =>
      rw [answer_get_of_some (hfind.trans hlookup), MapCache.answer_get_of_some hlookup]
      exact ⟨rfl, hrepresents.counted hit⟩
  | none =>
      rw [answer_get_of_none (hfind.trans hlookup), MapCache.answer_get_of_none hlookup]
      exact ⟨rfl, hrepresents.counted miss⟩

theorem getOrCompute (hlaws : IsMap session.Knows intact)
    (hrepresents : Represents hsound intact cached map) (key : session.Key)
    (compute : StateM σ V)
    (hintact : intact ((Caching.answer
      (.on key.1 (.getOrCompute compute))).run cached).2.cache.table) :
    Matches hsound intact
      ((Caching.answer (.on key.1 (.getOrCompute compute))).run cached)
      ((MapCache.answer hsound.kindOf
        (.on (hsound.classOf key) (.getOrCompute compute))).run map) := by
  have hfind := hrepresents.find?_classOf key
  cases hlookup : map.entries.lookup (hsound.classOf key) with
  | some value =>
      rw [answer_getOrCompute_of_some (hfind.trans hlookup),
        MapCache.answer_getOrCompute_of_some hlookup]
      exact ⟨rfl, hrepresents.counted hit⟩
  | none =>
      rw [answer_getOrCompute_of_none (hfind.trans hlookup), hrepresents.own_eq]
        at hintact ⊢
      rw [MapCache.answer_getOrCompute_of_none hlookup]
      exact ⟨rfl, hrepresents.computed hlaws key _ _ hintact⟩

theorem tryGetOrCompute (hlaws : IsMap session.Knows intact)
    (hrepresents : Represents hsound intact cached map) (key : session.Key)
    (compute : StateM σ (Except String V))
    (hintact : intact ((Caching.answer
      (.on key.1 (.tryGetOrCompute compute))).run cached).2.cache.table) :
    Matches hsound intact
      ((Caching.answer (.on key.1 (.tryGetOrCompute compute))).run cached)
      ((MapCache.answer hsound.kindOf
        (.on (hsound.classOf key) (.tryGetOrCompute compute))).run map) := by
  have hfind := hrepresents.find?_classOf key
  cases hlookup : map.entries.lookup (hsound.classOf key) with
  | some value =>
      rw [answer_tryGetOrCompute_of_some (hfind.trans hlookup),
        MapCache.answer_tryGetOrCompute_of_some hlookup]
      exact ⟨rfl, hrepresents.counted hit⟩
  | none =>
      cases hcompute : compute map.own with
      | mk result own =>
          have hcompute' : compute cached.own = (result, own) := by
            rw [hrepresents.own_eq, hcompute]
          cases result with
          | ok value =>
              rw [answer_tryGetOrCompute_of_ok (hfind.trans hlookup) hcompute']
                at hintact ⊢
              rw [MapCache.answer_tryGetOrCompute_of_ok hlookup hcompute]
              exact ⟨rfl, hrepresents.computed hlaws key value own hintact⟩
          | error reason =>
              rw [answer_tryGetOrCompute_of_error (hfind.trans hlookup) hcompute',
                MapCache.answer_tryGetOrCompute_of_error hlookup hcompute]
              exact ⟨rfl, hrepresents.failed own⟩

/-- One operation is answered as by the map, and keeps the map represented. -/
theorem answer (hlaws : IsMap session.Knows intact)
    (hrepresents : Represents hsound intact cached map)
    (operation : Operation session.Key V σ)
    (hintact : intact
      ((Caching.answer (operation.map (·.1))).run cached).2.cache.table) :
    Matches hsound intact ((Caching.answer (operation.map (·.1))).run cached)
      ((MapCache.answer hsound.kindOf (operation.map hsound.classOf)).run map) := by
  cases operation with
  | clear => exact ⟨rfl, hrepresents.clear hlaws hintact⟩
  | count => exact ⟨congrArg Answer.number hrepresents.count_eq, hrepresents⟩
  | on key request =>
      cases request with
      | get => exact hrepresents.get key
      | contains =>
          have hfind := hrepresents.find?_classOf key
          exact ⟨congrArg (fun found : Option V => Answer.presence found.isSome) hfind,
            hrepresents⟩
      | insert value => exact ⟨rfl, hrepresents.put hlaws key value hintact⟩
      | getOrCompute compute => exact hrepresents.getOrCompute hlaws key compute hintact
      | tryGetOrCompute compute =>
          exact hrepresents.tryGetOrCompute hlaws key compute hintact
      | invalidate => exact ⟨rfl, hrepresents.erase hlaws key hintact⟩

/-- A run is answered as by the map, and keeps the map represented. -/
theorem answerAll (hlaws : IsMap session.Knows intact)
    (hrepresents : Represents hsound intact cached map)
    {operations : List (Operation session.Key V σ)}
    (hundisturbed : Undisturbed intact cached (operations.map (.map (·.1)))) :
    Matches hsound intact
      ((Caching.answerAll (operations.map (.map (·.1)))).run cached)
      ((MapCache.answerAll hsound.kindOf
        (operations.map (.map hsound.classOf))).run map) := by
  induction operations generalizing cached map with
  | nil => exact ⟨rfl, hrepresents⟩
  | cons operation rest ih =>
      have hfirst := hrepresents.answer hlaws operation hundisturbed.first
      have hrest := ih hfirst.2 hundisturbed.rest
      rw [List.map_cons, List.map_cons, run_answerAll_cons, MapCache.run_answerAll_cons]
      exact ⟨congrArg₂ List.cons hfirst.1 hrest.1, hrest.2⟩

end Represents

/-! ## Runs from an empty cache -/

theorem Represents.start (hsound : session.Sound) (hlaws : IsMap session.Knows intact)
    (settings : CacheSettings) (journal : Journal) (own : σ)
    (hintact : intact (PlanTable.build settings)) :
    Represents hsound intact ⟨⟨settings, PlanTable.build settings, .zero⟩, journal, own⟩
      (MapCache.start journal own : MapCache hsound.Class V σ) where
  filled := .build hintact
  find?_eq key := hlaws.find?_build settings key.1 hintact key.2
  count_eq := hlaws.count_build settings hintact
  stats_eq := rfl
  journal_eq := rfl
  own_eq := rfl

/-- Operations on keys that are the same are operations on one class. -/
theorem Session.Sound.map_classOf_eq (hsound : session.Sound)
    {operations rekeyed : List (Operation session.Key V σ)}
    (hrekeys : List.Forall₂ (fun a b => (a.map (·.1)).Rekeys (b.map (·.1)))
      operations rekeyed) :
    rekeyed.map (Operation.map hsound.classOf) =
      operations.map (Operation.map hsound.classOf) := by
  induction hrekeys with
  | nil => rfl
  | @cons first first' _ _ hfirst _ ih =>
      rw [List.map_cons, List.map_cons, ih]
      congr 1
      cases first <;> cases first' <;> cases hfirst
      · rename_i hsame
        rw [Operation.map, Operation.map, (hsound.classOf_eq_iff _ _).mpr hsame]
      · rfl
      · rfl

/-- A run that avoids a key leaves its value. -/
theorem Represents.find?_answerAll {hsound : session.Sound}
    {cached : PlanCacheOn.Session T σ} {map : MapCache hsound.Class V σ}
    (hlaws : IsMap session.Knows intact)
    (hrepresents : Represents hsound intact cached map)
    {operations : List (Operation session.Key V σ)}
    (hundisturbed : Undisturbed intact cached (operations.map (.map (·.1))))
    (key : session.Key)
    (havoids : ∀ operation ∈ operations, (operation.map (·.1)).Avoids key.1) :
    ((Caching.answerAll (operations.map (.map (·.1)))).run cached).2.cache.find? key.1 =
      cached.cache.find? key.1 := by
  have hafter := (hrepresents.answerAll hlaws hundisturbed).2
  rw [hafter.find?_classOf key, hrepresents.find?_classOf key]
  apply MapCache.lookup_answerAll
  · intro hclear
    obtain ⟨operation, hmem, heq⟩ := List.mem_map.mp hclear
    have havoid := havoids operation hmem
    cases operation with
    | clear => exact havoid
    | on | count => simp [Operation.map] at heq
  · intro other request hmem heq
    obtain ⟨operation, hmem, hoperation⟩ := List.mem_map.mp hmem
    have havoid := havoids operation hmem
    cases operation with
    | clear | count => simp [Operation.map] at hoperation
    | on other' request' =>
        obtain ⟨rfl, -⟩ := Operation.on.inj hoperation
        have hsame := (hsound.classOf_eq_iff other' key).mp heq.symm
        exact Bool.false_ne_true (havoid.symm.trans hsame)

/-- On a table that keeps its entries, a new cache answers every run as a finite
map from classes of plans to values.  With other keys of the same classes the
run has the same answers, statistics and records, and ends in the same state of
the caller.  Operations that avoid a key leave its value, also if they are on
keys of its digest. -/
theorem caching_refines_finite_map [LawfulDigest] (hlawful : Lawful intact)
    (hreached : session.Reached) {settings : CacheSettings} {cache : PlanCacheOn T}
    (hcreate : PlanCacheOn.create settings = .ok cache) (journal : Journal) (own : σ)
    {operations : List (Operation session.Key V σ)}
    (hundisturbed : Undisturbed intact ⟨cache, journal, own⟩
      (operations.map (.map (·.1)))) :
    let run (operations : List (Operation session.Key V σ)) :=
      (Caching.answerAll (operations.map (.map (·.1)))).run ⟨cache, journal, own⟩
    Matches hreached.sound intact (run operations)
        ((MapCache.answerAll hreached.sound.kindOf
          (operations.map (.map hreached.sound.classOf))).run (.start journal own)) ∧
      (∀ rekeyed : List (Operation session.Key V σ),
        Undisturbed intact ⟨cache, journal, own⟩ (rekeyed.map (.map (·.1))) →
        List.Forall₂ (fun a b => (a.map (·.1)).Rekeys (b.map (·.1)))
          operations rekeyed →
        (run rekeyed).1 = (run operations).1 ∧
          (run rekeyed).2.cache.stats = (run operations).2.cache.stats ∧
          (run rekeyed).2.journal = (run operations).2.journal ∧
          (run rekeyed).2.own = (run operations).2.own) ∧
      ∀ before after, operations = before ++ after → ∀ key : session.Key,
        (∀ operation ∈ after, (operation.map (·.1)).Avoids key.1) →
        (run operations).2.cache.find? key.1 = (run before).2.cache.find? key.1 := by
  intro run
  have hsound := hreached.sound
  have hlaws := hlawful session.Knows hsound.consistent
  obtain rfl := PlanCacheOn.create_eq_ok hcreate
  have hstart := Represents.start hsound hlaws settings journal own
    (hundisturbed [] List.nil_prefix)
  have hrun := hstart.answerAll hlaws hundisturbed
  refine ⟨hrun, ?_, ?_⟩
  · intro rekeyed hrekeyed hrekeys
    have hother := hstart.answerAll hlaws hrekeyed
    rw [hsound.map_classOf_eq hrekeys] at hother
    exact ⟨hother.1.trans hrun.1.symm, hother.2.stats_eq.trans hrun.2.stats_eq.symm,
      hother.2.journal_eq.trans hrun.2.journal_eq.symm,
      hother.2.own_eq.trans hrun.2.own_eq.symm⟩
  · rintro before after rfl key havoids
    rw [List.map_append] at hundisturbed
    obtain ⟨hbefore, hafter⟩ := hundisturbed.append
    have hmiddle := (hstart.answerAll hlaws hbefore).2
    have hfind := hmiddle.find?_answerAll hlaws hafter key havoids
    simp only [run, List.map_append, run_answerAll_append]
    exact hfind

end

open Caching PlanTable
open scoped Hints

/-- A cross apply and an outer apply of one table, which have one digest, and a
copy of the first.  The plan of the outer apply is computed in vain at first. -/
theorem caching_refines_finite_map_applies :
    ∃ (session : Session) (cross outer copy : session.Key) (cache : PlanCache Nat),
      session.Reached ∧ cross.1.digest = outer.1.digest ∧
      cross.1.same outer.1 = false ∧ cross.1.handle ≠ copy.1.handle ∧
      cross.1.same copy.1 = true ∧ PlanCache.create .default = .ok cache ∧
      let fail : StateM Nat (Except String Nat) := fun calls =>
        (.error "no plan", calls + 1)
      let compute : StateM Nat Nat := fun calls => (8, calls + 1)
      let run (first : session.Key) :=
        (Caching.answerAll [.on first.1 (.insert 7), .on outer.1 (.tryGetOrCompute fail),
          .on outer.1 (.getOrCompute compute)]).run ⟨cache, [], 0⟩
      (run copy).1 = (run cross).1 ∧ (run cross).2.own = 2 ∧
        (run cross).2.cache.find? cross.1 = some 7 := by
  let table := (Label.table "t" none none).node 0 .empty []
  let cross := (Label.join .crossApply).node 1 .empty [table]
  let outer := (Label.join .outerApply).node 2 .empty [table]
  let copy := (Label.join .crossApply).node 3 .empty [table]
  let session : Session := ⟨4, [copy, outer, cross, table]⟩
  have htable : Session.Reached ⟨1, [table]⟩ :=
    (Session.Reached.start 0).assemble (by simp) rfl
  have hcross : Session.Reached ⟨2, [cross, table]⟩ := htable.assemble (by simp) rfl
  have houter : Session.Reached ⟨3, [outer, cross, table]⟩ :=
    hcross.assemble (by simp) rfl
  have hreached : session.Reached := houter.assemble (by simp) rfl
  let crossKey : session.Key := ⟨cross, Session.knows_of_mem_held (by simp [session])⟩
  let outerKey : session.Key := ⟨outer, Session.knows_of_mem_held (by simp [session])⟩
  let copyKey : session.Key := ⟨copy, Session.knows_of_mem_held (by simp [session])⟩
  let cache : PlanCache Nat := ⟨.default, [], .zero⟩
  have hcreate : PlanCacheOn.create .default = .ok cache := rfl
  have hdiffer : outer.same cross = false := by decide
  have hsame : cross.same copy = true := by decide
  let fail : StateM Nat (Except String Nat) := fun calls => (.error "no plan", calls + 1)
  let compute : StateM Nat Nat := fun calls => (8, calls + 1)
  let after : List (Operation session.Key Nat Nat) :=
    [.on outerKey (.tryGetOrCompute fail), .on outerKey (.getOrCompute compute)]
  have hundisturbed : Undisturbed (fun _ => True) ⟨cache, [], 0⟩
      ((.on crossKey (.insert 7) :: after).map (.map (·.1))) := fun _ _ => trivial
  obtain ⟨-, hrekeyed, hframe⟩ :=
    caching_refines_finite_map PlanEntries.lawful hreached hcreate [] 0 hundisturbed
  refine ⟨session, crossKey, outerKey, copyKey, cache, hreached, rfl, by decide,
    by decide, hsame, rfl, ?_, rfl, ?_⟩
  · have hrekeys : List.Forall₂
        (fun a b : Operation session.Key Nat Nat => (a.map (·.1)).Rekeys (b.map (·.1)))
        (.on crossKey (.insert 7) :: after) (.on copyKey (.insert 7) :: after) := by
      refine .cons (.on _ hsame) (.cons (.on _ ?_) (.cons (.on _ ?_) .nil)) <;> decide
    exact (hrekeyed _ (fun _ _ => trivial) hrekeys).1
  · have havoids : ∀ operation ∈ after, (operation.map (·.1)).Avoids cross := by
      simpa [after, Operation.map, Operation.Avoids] using hdiffer
    exact hframe [.on crossKey (.insert 7)] after rfl crossKey havoids

end QueryPlan
