import QueryPlan.Cache.Settings
import QueryPlan.Node.Digest
import QueryPlan.Node.Equality

/-!
# Tables of plans

A cache keeps its values in a table that finds them by the digests and the
equality of plans.  `PlanTable` is what a cache asks of such a table; how the
table stores its entries, and when it drops some of them, is left to it.
`PlanEntries` is the plainest table, a list that keeps everything.
-/

namespace QueryPlan

variable [ForeignTypes]

/-- Tables that keep values of type `V` under plans. -/
class PlanTable (T : Type) (V : outParam Type) where
  /-- A table for the given settings, without entries. -/
  build : CacheSettings → T
  find? : T → Node → Option V
  put : T → Node → V → T
  erase : T → Node → T
  clear : T → T
  count : T → Nat

/-- Keys that differ pairwise, each with a value. -/
abbrev PlanEntries (V : Type) := List (Node × V)

namespace PlanEntries

variable {V : Type}

/-- Whether an entry is found under a key: their digests meet, and they are the
same. -/
def answers (key : Node) (entry : Node × V) : Bool :=
  entry.1.digest = key.digest && entry.1.same key

def find? (entries : PlanEntries V) (key : Node) : Option V :=
  (List.find? (answers key) entries).map (·.2)

def put (key : Node) (value : V) : PlanEntries V → PlanEntries V
  | [] => [(key, value)]
  | first :: rest =>
      if answers key first then (first.1, value) :: rest
      else first :: put key value rest

def erase (entries : PlanEntries V) (key : Node) : PlanEntries V :=
  List.filter (!answers key ·) entries

instance : PlanTable (PlanEntries V) V where
  build _ := []
  find? := find?
  put entries key value := put key value entries
  erase := erase
  clear _ := []
  count := List.length

end PlanEntries

end QueryPlan
