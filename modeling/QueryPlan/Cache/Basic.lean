import QueryPlan.Cache.Table
import QueryPlan.Journal
import QueryPlan.Literal

/-!
# The plan cache

Computed plans are kept under the plans from which they were computed.  Keys
that are the same find the same entry, whatever their handles.  A computation
that fails leaves no entry.

The operations are actions on the cache, a journal and a state of the caller,
which the computations of the caller may change.  A cache may be put on any
table of plans; `PlanCache` is the one on a list, which neither evicts entries
nor lets them expire.
-/

namespace QueryPlan

variable [ForeignTypes]

/-- How often the cache was asked, and how it answered.  A counter has 64 bits, but no
run comes to 2 ^ 64 calls, so that it is a number without a bound here. -/
structure Statistics where
  hits : Nat
  misses : Nat
  computations : Nat
  failures : Nat
  deriving DecidableEq

namespace Statistics

def zero : Statistics := ⟨0, 0, 0, 0⟩

def total (stats : Statistics) : Nat :=
  stats.hits + stats.misses

/-- The share of hits; zero before the first question. -/
def hitRate (stats : Statistics) : Binary64 :=
  if stats.total = 0 then .positiveZero
  else .dividedBy false (.ofNatural false stats.hits) (.ofNatural false stats.total)

def text (stats : Statistics) : String :=
  "PlanCacheStats \x7b hits: " ++ toString stats.hits
    ++ ", misses: " ++ toString stats.misses
    ++ ", computations: " ++ toString stats.computations
    ++ ", failures: " ++ toString stats.failures ++ " \x7d"

end Statistics

def CacheSettings.text (settings : CacheSettings) : String :=
  "CacheConfig \x7b max_entries: " ++ toString settings.maxEntries.toNat
    ++ ", ttl_seconds: "
    ++ (match settings.lifetime with
      | some seconds => "Some(" ++ toString seconds.toNat ++ ")"
      | none => "None")
    ++ " \x7d"

inductive CacheError where
  | invalidSettings (fault : SettingsFault)
  /-- The settings are valid, but no cache can be built with them. -/
  | unsupportedLifetime
  | computationFailed (reason : String)
  deriving DecidableEq

def CacheError.message : CacheError → String
  | .invalidSettings fault => "无效的缓存配置: " ++ fault.message
  | .unsupportedLifetime => "无法建立缓存"
  | .computationFailed reason => "计划计算失败: " ++ reason

/-- A plan cache on a table of type `T`. -/
structure PlanCacheOn (T : Type) where
  settings : CacheSettings
  table : T
  stats : Statistics

abbrev PlanCache (V : Type) := PlanCacheOn (PlanEntries V)

namespace PlanCacheOn

variable {T V : Type}

/-- A cache without entries. -/
def create [PlanTable T V] (settings : CacheSettings) :
    Except CacheError (PlanCacheOn T) :=
  match settings.validate with
  | .error fault => .error (.invalidSettings fault)
  | .ok () =>
      if settings.lifetime.any (CacheSettings.longestLifetime < ·) then
        .error .unsupportedLifetime
      else .ok ⟨settings, PlanTable.build settings, .zero⟩

def find? [PlanTable T V] (cache : PlanCacheOn T) (key : Node) : Option V :=
  PlanTable.find? cache.table key

def put [PlanTable T V] (cache : PlanCacheOn T) (key : Node) (value : V) :
    PlanCacheOn T :=
  { cache with table := PlanTable.put cache.table key value }

def erase [PlanTable T V] (cache : PlanCacheOn T) (key : Node) : PlanCacheOn T :=
  { cache with table := PlanTable.erase cache.table key }

def count [PlanTable T V] (cache : PlanCacheOn T) : Nat :=
  PlanTable.count cache.table

def text (cache : PlanCacheOn T) : String :=
  "PlanCache \x7b config: " ++ cache.settings.text
    ++ ", stats: " ++ cache.stats.text ++ " \x7d"

/-- What the operations of a cache act on. -/
structure Session (T σ : Type) where
  cache : PlanCacheOn T
  journal : Journal
  own : σ

end PlanCacheOn

/-- A list as a cache without entries. -/
def PlanCache.create {V : Type} (settings : CacheSettings) :
    Except CacheError (PlanCache V) :=
  PlanCacheOn.create settings

/-- An action on a cache on a table of type `T`. -/
abbrev CachingOn (T σ : Type) := StateM (PlanCacheOn.Session T σ)

abbrev Caching (V σ : Type) := CachingOn (PlanEntries V) σ

namespace Caching

variable {T V σ : Type}

def modifyCache (change : PlanCacheOn T → PlanCacheOn T) : CachingOn T σ PUnit :=
  modify fun session => { session with cache := change session.cache }

def modifyStats (change : Statistics → Statistics) : CachingOn T σ PUnit :=
  modifyCache fun cache => { cache with stats := change cache.stats }

def hit (stats : Statistics) : Statistics :=
  { stats with hits := stats.hits + 1 }

def miss (stats : Statistics) : Statistics :=
  { stats with misses := stats.misses + 1 }

variable [PlanTable T V]

/-- Looks a key up without computing anything. -/
def get? (key : Node) : CachingOn T σ (Option V) := do
  let found := (← get).cache.find? key
  modifyStats (if found.isSome then hit else miss)
  return found

/-- Whether a key has an entry; not counted as a question. -/
def contains (key : Node) : CachingOn T σ Bool :=
  return ((← get).cache.find? key).isSome

/-- Sets an entry, instead of any entry of the same key. -/
def insert (key : Node) (value : V) : CachingOn T σ PUnit :=
  modifyCache (·.put key value)

/-- Runs a computation of the caller. -/
def perform {α : Type} (compute : StateM σ α) : CachingOn T σ α :=
  modifyGet fun session =>
    let (value, own) := compute session.own
    (value, { session with own })

/-- Keeps the result of a computation for a key that had no entry. -/
def store (key : Node) (value : V) : CachingOn T σ PUnit := do
  insert key value
  modifyStats fun stats =>
    { miss stats with computations := stats.computations + 1 }
  modify fun session =>
    { session with journal := session.journal ++ [.planComputed key.kind] }

/-- The entry of a key, computed if there is none. -/
def getOrCompute (key : Node) (compute : StateM σ V) : CachingOn T σ V := do
  match (← get).cache.find? key with
  | some value =>
      modifyStats hit
      return value
  | none =>
      let value ← perform compute
      store key value
      return value

/-- The entry of a key, computed if there is none; a failure is not kept. -/
def tryGetOrCompute (key : Node) (compute : StateM σ (Except String V)) :
    CachingOn T σ (Except CacheError V) := do
  match (← get).cache.find? key with
  | some value =>
      modifyStats hit
      return .ok value
  | none =>
      match ← perform compute with
      | .ok value =>
          store key value
          return .ok value
      | .error reason =>
          modifyStats fun stats =>
            { miss stats with failures := stats.failures + 1 }
          return .error (.computationFailed reason)

def invalidate (key : Node) : CachingOn T σ PUnit :=
  modifyCache (·.erase key)

/-- Drops all entries and begins to count anew. -/
def clear : CachingOn T σ PUnit :=
  modifyCache fun cache =>
    { cache with table := PlanTable.clear cache.table, stats := .zero }

def count : CachingOn T σ Nat :=
  return (← get).cache.count

end Caching

end QueryPlan
