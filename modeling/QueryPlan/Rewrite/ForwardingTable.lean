import QueryPlan.Signature

/-!
# Forwarding tables

A forwarding table maps signatures of functions to signatures that stand for
them.  An entry is refused when the number of parameters would change, or when
following the entries could come back to where it began; so every chain ends.
A chain passes each entry at most once, which bounds the steps along it by the
size of the table.
-/

namespace QueryPlan

inductive ForwardingError where
  /-- Following the entries would come back to the source. -/
  | cycle (source : Signature)
  | arityMismatch (source target : Signature)
  deriving DecidableEq

def ForwardingError.message : ForwardingError → String
  | .cycle source => "转发环: " ++ source.text
  | .arityMismatch source target =>
      "转发签名参数个数不一致: " ++ source.text ++ " -> " ++ target.text

/-- Entries with distinct sources. -/
structure ForwardingTable where
  entries : List (Signature × Signature)

namespace ForwardingTable

def empty : ForwardingTable := ⟨[]⟩

def size (table : ForwardingTable) : Nat :=
  table.entries.length

def isEmpty (table : ForwardingTable) : Bool :=
  table.size == 0

/-- The target of the entry for a signature. -/
def get? (table : ForwardingTable) (source : Signature) : Option Signature :=
  (table.entries.find? (·.1 = source)).map (·.2)

def contains (table : ForwardingTable) (source : Signature) : Bool :=
  (table.get? source).isSome

def putEntry (source target : Signature) :
    List (Signature × Signature) → List (Signature × Signature)
  | [] => [(source, target)]
  | (first, firstTarget) :: rest =>
      if first = source then (source, target) :: rest
      else (first, firstTarget) :: putEntry source target rest

/-- Sets an entry, instead of any entry of the same source. -/
def put (table : ForwardingTable) (source target : Signature) : ForwardingTable :=
  ⟨putEntry source target table.entries⟩

/-- Follows at most `steps` entries. -/
def follow (table : ForwardingTable) : Nat → Signature → Signature
  | 0, signature => signature
  | steps + 1, signature =>
      match table.get? signature with
      | some next => table.follow steps next
      | none => signature

/-- Whether following at most `steps` entries from `signature` meets `goal`. -/
def reaches (table : ForwardingTable) (goal : Signature) : Nat → Signature → Bool
  | 0, signature => signature == goal
  | steps + 1, signature =>
      signature == goal ||
        match table.get? signature with
        | some next => table.reaches goal steps next
        | none => false

/-- The end of the chain that begins at a signature with an entry. -/
def resolve? (table : ForwardingTable) (source : Signature) : Option Signature :=
  (table.get? source).map (table.follow table.size)

/-- The table with one more entry. -/
def insert (table : ForwardingTable) (source target : Signature) :
    Except ForwardingError ForwardingTable :=
  if source.arity ≠ target.arity then
    .error (.arityMismatch source target)
  else if table.reaches source table.size target then
    .error (.cycle source)
  else .ok (table.put source target)

/-- Inserts an entry into the table that is held as the state. -/
def register (source target : Signature) :
    EStateM ForwardingError ForwardingTable PUnit := do
  if source.arity ≠ target.arity then
    throw (.arityMismatch source target)
  let table ← get
  if table.reaches source table.size target then
    throw (.cycle source)
  set (table.put source target)

end ForwardingTable

end QueryPlan
