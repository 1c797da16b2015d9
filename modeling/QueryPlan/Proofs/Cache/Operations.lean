import Mathlib.Data.Finmap
import QueryPlan.Cache.Basic

/-!
# Operations of a cache

The calls that a caller may make, as data: `Caching.answer` makes them on a
cache, `MapCache.answer` on a finite map in its place.  On a map a computation
is run when its key has no value, on the state in which the call finds the
caller; a failure changes no entry.
-/

namespace QueryPlan

theorem Caching.run_perform {T σ α : Type} (compute : StateM σ α)
    (cached : PlanCacheOn.Session T σ) :
    (perform compute).run cached =
      ((compute cached.own).1, { cached with own := (compute cached.own).2 }) :=
  rfl

section

variable [ForeignTypes]

theorem PlanCacheOn.create_eq_ok {T V : Type} [PlanTable T V]
    {settings : CacheSettings} {cache : PlanCacheOn T}
    (hcreate : PlanCacheOn.create settings = .ok cache) :
    cache = ⟨settings, PlanTable.build settings, .zero⟩ := by
  unfold PlanCacheOn.create at hcreate
  split at hcreate
  · contradiction
  · split at hcreate
    · contradiction
    · exact (Except.ok.inj hcreate).symm

namespace Caching

/-- What may be asked of a cache about one key. -/
inductive Request (V σ : Type) where
  | get
  | contains
  | insert (value : V)
  | getOrCompute (compute : StateM σ V)
  | tryGetOrCompute (compute : StateM σ (Except String V))
  | invalidate

inductive Operation (K V σ : Type) where
  | on (key : K) (request : Request V σ)
  | clear
  | count

inductive Answer (V : Type) where
  | done
  | entry (found : Option V)
  | presence (present : Bool)
  | value (value : V)
  | result (result : Except CacheError V)
  | number (count : Nat)

namespace Operation

variable {K L V σ : Type}

def map (f : K → L) : Operation K V σ → Operation L V σ
  | .on key request => .on (f key) request
  | .clear => .clear
  | .count => .count

/-- The same operation, on a key that is the same. -/
inductive Rekeys : Operation Node V σ → Operation Node V σ → Prop
  | on {key other : Node} (request : Request V σ) :
      key.same other = true → Rekeys (.on key request) (.on other request)
  | clear : Rekeys .clear .clear
  | count : Rekeys .count .count

/-- Whether an operation is on keys that are not the same as the given one.  It
may well be on keys of the same digest. -/
def Avoids (key : Node) : Operation Node V σ → Prop
  | .on other _ => other.same key = false
  | .clear => False
  | .count => True

end Operation

variable {T V σ : Type} [PlanTable T V]

def answer : Operation Node V σ → CachingOn T σ (Answer V)
  | .on key .get => return .entry (← get? key)
  | .on key .contains => return .presence (← contains key)
  | .on key (.insert value) => do
      insert key value
      return .done
  | .on key (.getOrCompute compute) => return .value (← getOrCompute key compute)
  | .on key (.tryGetOrCompute compute) =>
      return .result (← tryGetOrCompute key compute)
  | .on key .invalidate => do
      invalidate key
      return .done
  | .clear => do
      clear
      return .done
  | .count => return .number (← count)

def answerAll (operations : List (Operation Node V σ)) :
    CachingOn T σ (List (Answer V)) :=
  operations.mapM answer

/-- Whether nothing is dropped from the table at any time while some operations
are made. -/
def Undisturbed (intact : T → Prop) (start : PlanCacheOn.Session T σ)
    (operations : List (Operation Node V σ)) : Prop :=
  ∀ part, part <+: operations → intact ((answerAll part).run start).2.cache.table

theorem run_answerAll_cons (first : Operation Node V σ) (rest : List (Operation Node V σ))
    (cached : PlanCacheOn.Session T σ) :
    (answerAll (first :: rest)).run cached =
      (((answer first).run cached).1 ::
          ((answerAll rest).run ((answer first).run cached).2).1,
        ((answerAll rest).run ((answer first).run cached).2).2) := by
  simp only [answerAll, List.mapM_cons, StateT.run_bind]
  rfl

theorem run_answerAll_append (before after : List (Operation Node V σ))
    (cached : PlanCacheOn.Session T σ) :
    ((answerAll (before ++ after)).run cached).2 =
      ((answerAll after).run ((answerAll before).run cached).2).2 := by
  simp only [answerAll, List.mapM_append, StateT.run_bind]
  rfl

theorem Undisturbed.append {intact : T → Prop} {cached : PlanCacheOn.Session T σ}
    {before after : List (Operation Node V σ)}
    (hundisturbed : Undisturbed intact cached (before ++ after)) :
    Undisturbed intact cached before ∧
      Undisturbed intact ((answerAll before).run cached).2 after := by
  constructor
  · intro part hpart
    exact hundisturbed part (hpart.trans (List.prefix_append before after))
  · intro part hpart
    have hall := hundisturbed (before ++ part) ((List.prefix_append_right_inj _).mpr hpart)
    rwa [run_answerAll_append] at hall

theorem Undisturbed.first {intact : T → Prop} {cached : PlanCacheOn.Session T σ}
    {first : Operation Node V σ} {rest : List (Operation Node V σ)}
    (hundisturbed : Undisturbed intact cached (first :: rest)) :
    intact ((answer first).run cached).2.cache.table :=
  hundisturbed [first] (List.prefix_append [first] rest)

theorem Undisturbed.rest {intact : T → Prop} {cached : PlanCacheOn.Session T σ}
    {first : Operation Node V σ} {rest : List (Operation Node V σ)}
    (hundisturbed : Undisturbed intact cached (first :: rest)) :
    Undisturbed intact ((answer first).run cached).2 rest := by
  intro part hpart
  have hall := hundisturbed (first :: part) (List.cons_prefix_cons.mpr ⟨rfl, hpart⟩)
  rwa [run_answerAll_cons] at hall

/-! ### What the calls do -/

section Calls

variable (cached : PlanCacheOn.Session T σ) (key : Node)

/-- The cache after a change of its statistics. -/
def counted (change : Statistics → Statistics) : PlanCacheOn.Session T σ :=
  { cached with cache := { cached.cache with stats := change cached.cache.stats } }

/-- The cache after a computation that ended with a value and left the caller in
a state. -/
def computed (value : V) (own : σ) : PlanCacheOn.Session T σ :=
  { cache := { cached.cache.put key value with
      stats := { cached.cache.stats with
        misses := cached.cache.stats.misses + 1
        computations := cached.cache.stats.computations + 1 } }
    journal := cached.journal ++ [.planComputed key.kind]
    own }

/-- The cache after a computation that failed and left the caller in a state. -/
def failed (own : σ) : PlanCacheOn.Session T σ :=
  { cached with
    cache := { cached.cache with
      stats := { cached.cache.stats with
        misses := cached.cache.stats.misses + 1
        failures := cached.cache.stats.failures + 1 } }
    own }

variable {cached key} {value : V}

theorem answer_get_of_some (hfind : cached.cache.find? key = some value) :
    (answer (.on key .get)).run cached = (.entry (some value), counted cached hit) := by
  simp only [answer, get?, StateT.run_bind, StateT.run_get, pure_bind, hfind]
  rfl

theorem answer_get_of_none (hfind : cached.cache.find? key = none) :
    (answer (.on key .get)).run cached = (.entry none, counted cached miss) := by
  simp only [answer, get?, StateT.run_bind, StateT.run_get, pure_bind, hfind]
  rfl

theorem answer_getOrCompute_of_some {compute : StateM σ V}
    (hfind : cached.cache.find? key = some value) :
    (answer (.on key (.getOrCompute compute))).run cached =
      (.value value, counted cached hit) := by
  simp only [answer, getOrCompute, StateT.run_bind, StateT.run_get, pure_bind, hfind]
  rfl

theorem answer_getOrCompute_of_none {compute : StateM σ V}
    (hfind : cached.cache.find? key = none) :
    (answer (.on key (.getOrCompute compute))).run cached =
      (.value (compute cached.own).1,
        computed cached key (compute cached.own).1 (compute cached.own).2) := by
  simp only [answer, getOrCompute, StateT.run_bind, StateT.run_get, pure_bind, hfind]
  rfl

theorem answer_tryGetOrCompute_of_some {compute : StateM σ (Except String V)}
    (hfind : cached.cache.find? key = some value) :
    (answer (.on key (.tryGetOrCompute compute))).run cached =
      (.result (.ok value), counted cached hit) := by
  simp only [answer, tryGetOrCompute, StateT.run_bind, StateT.run_get, pure_bind, hfind]
  rfl

theorem answer_tryGetOrCompute_of_ok {compute : StateM σ (Except String V)} {own : σ}
    (hfind : cached.cache.find? key = none)
    (hcompute : compute cached.own = (.ok value, own)) :
    (answer (.on key (.tryGetOrCompute compute))).run cached =
      (.result (.ok value), computed cached key value own) := by
  simp only [answer, tryGetOrCompute, StateT.run_bind, StateT.run_get, pure_bind, hfind]
  rw [run_perform, hcompute]
  rfl

theorem answer_tryGetOrCompute_of_error {compute : StateM σ (Except String V)} {own : σ}
    {reason : String} (hfind : cached.cache.find? key = none)
    (hcompute : compute cached.own = (.error reason, own)) :
    (answer (.on key (.tryGetOrCompute compute))).run cached =
      (.result (.error (.computationFailed reason)), failed cached own) := by
  simp only [answer, tryGetOrCompute, StateT.run_bind, StateT.run_get, pure_bind, hfind]
  rw [run_perform, hcompute]
  rfl

end Calls

end Caching

end

/-! ## Finite maps in the place of caches -/

open Caching

/-- A finite map from keys to values, with what else a cache keeps. -/
structure MapCache (K V σ : Type) where
  entries : Finmap fun _ : K => V
  stats : Statistics
  journal : Journal
  own : σ

namespace MapCache

variable {K V σ : Type}

def start (journal : Journal) (own : σ) : MapCache K V σ :=
  ⟨∅, .zero, journal, own⟩

def counted (map : MapCache K V σ) (change : Statistics → Statistics) :
    MapCache K V σ :=
  { map with stats := change map.stats }

/-- After a computation that failed and left the caller in a state. -/
def failed (map : MapCache K V σ) (own : σ) : MapCache K V σ :=
  { map with
    stats := { map.stats with
      misses := map.stats.misses + 1
      failures := map.stats.failures + 1 }
    own }

variable [DecidableEq K]

/-- After a computation that ended with a value and left the caller in a state. -/
def computed (map : MapCache K V σ) (kindOf : K → Kind) (key : K) (value : V)
    (own : σ) : MapCache K V σ :=
  { entries := map.entries.insert key value
    stats := { map.stats with
      misses := map.stats.misses + 1
      computations := map.stats.computations + 1 }
    journal := map.journal ++ [.planComputed (kindOf key)]
    own }

def answer (kindOf : K → Kind) (operation : Operation K V σ) :
    StateM (MapCache K V σ) (Answer V) := fun map =>
  match operation with
  | .on key .get =>
      match map.entries.lookup key with
      | some value => (.entry (some value), map.counted hit)
      | none => (.entry none, map.counted miss)
  | .on key .contains => (.presence (map.entries.lookup key).isSome, map)
  | .on key (.insert value) =>
      (.done, { map with entries := map.entries.insert key value })
  | .on key (.getOrCompute compute) =>
      match map.entries.lookup key with
      | some value => (.value value, map.counted hit)
      | none =>
          let (value, own) := compute map.own
          (.value value, map.computed kindOf key value own)
  | .on key (.tryGetOrCompute compute) =>
      match map.entries.lookup key with
      | some value => (.result (.ok value), map.counted hit)
      | none =>
          match compute map.own with
          | (.ok value, own) =>
              (.result (.ok value), map.computed kindOf key value own)
          | (.error reason, own) =>
              (.result (.error (.computationFailed reason)), map.failed own)
  | .on key .invalidate => (.done, { map with entries := map.entries.erase key })
  | .clear => (.done, { map with entries := ∅, stats := .zero })
  | .count => (.number map.entries.keys.card, map)

def answerAll (kindOf : K → Kind) (operations : List (Operation K V σ)) :
    StateM (MapCache K V σ) (List (Answer V)) :=
  operations.mapM (answer kindOf)

theorem run_answerAll_cons (kindOf : K → Kind) (first : Operation K V σ)
    (rest : List (Operation K V σ)) (map : MapCache K V σ) :
    (answerAll kindOf (first :: rest)).run map =
      (((answer kindOf first).run map).1 ::
          ((answerAll kindOf rest).run ((answer kindOf first).run map).2).1,
        ((answerAll kindOf rest).run ((answer kindOf first).run map).2).2) := by
  simp only [answerAll, List.mapM_cons, StateT.run_bind]
  rfl

section Calls

variable {kindOf : K → Kind} {map : MapCache K V σ} {key : K} {value : V}

theorem answer_get_of_some (hlookup : map.entries.lookup key = some value) :
    (answer kindOf (.on key .get)).run map = (.entry (some value), map.counted hit) := by
  simp only [answer, StateT.run, hlookup]

theorem answer_get_of_none (hlookup : map.entries.lookup key = none) :
    (answer kindOf (.on key .get)).run map = (.entry none, map.counted miss) := by
  simp only [answer, StateT.run, hlookup]

theorem answer_getOrCompute_of_some {compute : StateM σ V}
    (hlookup : map.entries.lookup key = some value) :
    (answer kindOf (.on key (.getOrCompute compute))).run map =
      (.value value, map.counted hit) := by
  simp only [answer, StateT.run, hlookup]

theorem answer_getOrCompute_of_none {compute : StateM σ V}
    (hlookup : map.entries.lookup key = none) :
    (answer kindOf (.on key (.getOrCompute compute))).run map =
      (.value (compute map.own).1,
        map.computed kindOf key (compute map.own).1 (compute map.own).2) := by
  simp only [answer, StateT.run, hlookup]
  rfl

theorem answer_tryGetOrCompute_of_some {compute : StateM σ (Except String V)}
    (hlookup : map.entries.lookup key = some value) :
    (answer kindOf (.on key (.tryGetOrCompute compute))).run map =
      (.result (.ok value), map.counted hit) := by
  simp only [answer, StateT.run, hlookup]

theorem answer_tryGetOrCompute_of_ok {compute : StateM σ (Except String V)} {own : σ}
    (hlookup : map.entries.lookup key = none)
    (hcompute : compute map.own = (.ok value, own)) :
    (answer kindOf (.on key (.tryGetOrCompute compute))).run map =
      (.result (.ok value), map.computed kindOf key value own) := by
  simp only [answer, StateT.run, hlookup, hcompute]

theorem answer_tryGetOrCompute_of_error {compute : StateM σ (Except String V)} {own : σ}
    {reason : String} (hlookup : map.entries.lookup key = none)
    (hcompute : compute map.own = (.error reason, own)) :
    (answer kindOf (.on key (.tryGetOrCompute compute))).run map =
      (.result (.error (.computationFailed reason)), map.failed own) := by
  simp only [answer, StateT.run, hlookup, hcompute]

end Calls

/-- An operation on another key leaves the value of a key. -/
theorem lookup_answer (kindOf : K → Kind) (map : MapCache K V σ) (key : K)
    {operation : Operation K V σ} (hclear : operation ≠ .clear)
    (hother : ∀ other request, operation = .on other request → key ≠ other) :
    ((answer kindOf operation).run map).2.entries.lookup key =
      map.entries.lookup key := by
  cases operation with
  | clear => exact absurd rfl hclear
  | count => rfl
  | on other request =>
      have hne := hother other request rfl
      have hinsert : ∀ value : V,
          (map.entries.insert other value).lookup key = map.entries.lookup key :=
        fun value => Finmap.lookup_insert_of_ne _ hne
      cases request with
      | contains => rfl
      | insert value => exact hinsert value
      | invalidate => exact Finmap.lookup_erase_ne hne
      | get =>
          cases hlookup : map.entries.lookup other with
          | some value => rw [answer_get_of_some hlookup]; rfl
          | none => rw [answer_get_of_none hlookup]; rfl
      | getOrCompute compute =>
          cases hlookup : map.entries.lookup other with
          | some value => rw [answer_getOrCompute_of_some hlookup]; rfl
          | none => rw [answer_getOrCompute_of_none hlookup]; exact hinsert _
      | tryGetOrCompute compute =>
          cases hlookup : map.entries.lookup other with
          | some value => rw [answer_tryGetOrCompute_of_some hlookup]; rfl
          | none =>
              cases hcompute : compute map.own with
              | mk result own =>
                  cases result with
                  | ok value =>
                      rw [answer_tryGetOrCompute_of_ok hlookup hcompute]
                      exact hinsert value
                  | error reason =>
                      rw [answer_tryGetOrCompute_of_error hlookup hcompute]
                      rfl

theorem lookup_answerAll (kindOf : K → Kind) (map : MapCache K V σ) (key : K)
    {operations : List (Operation K V σ)} (hclear : .clear ∉ operations)
    (hother : ∀ other request, .on other request ∈ operations → key ≠ other) :
    ((answerAll kindOf operations).run map).2.entries.lookup key =
      map.entries.lookup key := by
  induction operations generalizing map with
  | nil => rfl
  | cons first rest ih =>
      rw [List.mem_cons, not_or] at hclear
      have hfirst := lookup_answer kindOf map key (Ne.symm hclear.1)
        fun other request heq => hother other request (heq ▸ List.mem_cons_self)
      rw [run_answerAll_cons, ← hfirst]
      exact ih _ hclear.2 fun other request hmem =>
        hother other request (List.mem_cons_of_mem _ hmem)

end MapCache

end QueryPlan
