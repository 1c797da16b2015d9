import QueryPlan.Rewrite.NumericFunctions

/-!
# Reached forwarding tables

The tables that can be had: the empty and the standard one, with any entries
inserted that were not refused.  In all of them an entry keeps the number of
parameters, and so does following a chain of entries.
-/

namespace QueryPlan.ForwardingTable

inductive Reached : ForwardingTable → Prop
  | empty : Reached empty
  | standard : Reached standard
  | insert {table later : ForwardingTable} (source target : Signature) :
      Reached table → table.insert source target = .ok later → Reached later

/-- Every entry keeps the number of parameters. -/
def KeepsArity (entries : List (Signature × Signature)) : Prop :=
  ∀ entry ∈ entries, entry.1.arity = entry.2.arity

theorem Method.arity_signature (method : Method) (declaring type : String) :
    (method.signature declaring type).arity = method.operands.length := by
  simp [signature, Signature.arity]

theorem keepsArity_append {entries others : List (Signature × Signature)} :
    KeepsArity (entries ++ others) ↔ KeepsArity entries ∧ KeepsArity others := by
  simp [KeepsArity, or_imp, forall_and]

theorem keepsArity_forwarded (source type target : String) (methods : List Method) :
    KeepsArity (forwarded source type target methods) := by
  intro entry hentry
  obtain ⟨method, -, rfl⟩ := List.mem_map.mp hentry
  rw [Method.arity_signature, Method.arity_signature]

theorem keepsArity_flatMap_forwarded (types : List String) (target : String)
    (methods : List Method) :
    KeepsArity (types.flatMap fun type => forwarded type type target methods) := by
  intro entry hentry
  obtain ⟨type, -, hentry⟩ := List.mem_flatMap.mp hentry
  exact keepsArity_forwarded type type target methods entry hentry

theorem keepsArity_forwardedRemainder (type target : String) :
    KeepsArity [forwardedRemainder type target] := by
  intro entry hentry
  rw [List.mem_singleton.mp hentry, forwardedRemainder, Method.arity_signature,
    Method.arity_signature]
  rfl

theorem keepsArity_standard : KeepsArity standard.entries := by
  simp only [standard, keepsArity_append, keepsArity_forwarded,
    keepsArity_flatMap_forwarded, keepsArity_forwardedRemainder, and_self]

theorem keepsArity_putEntry {entries : List (Signature × Signature)}
    (hentries : KeepsArity entries) {source target : Signature}
    (harity : source.arity = target.arity) :
    KeepsArity (putEntry source target entries) := by
  induction entries with
  | nil =>
      intro entry hentry
      rw [List.mem_singleton.mp hentry]
      exact harity
  | cons first rest ih =>
      have hfirst := hentries first List.mem_cons_self
      have hrest : KeepsArity rest :=
        fun entry hentry => hentries entry (List.mem_cons_of_mem first hentry)
      simp only [putEntry]
      split
      · intro entry hentry
        rcases List.mem_cons.mp hentry with rfl | hentry
        · exact harity
        · exact hrest entry hentry
      · intro entry hentry
        rcases List.mem_cons.mp hentry with rfl | hentry
        · exact hfirst
        · exact ih hrest entry hentry

theorem Reached.keepsArity {table : ForwardingTable} (htable : table.Reached) :
    KeepsArity table.entries := by
  induction htable with
  | empty => simp [KeepsArity, ForwardingTable.empty]
  | standard => exact keepsArity_standard
  | insert source target _ hinsert ih =>
      unfold ForwardingTable.insert at hinsert
      split at hinsert
      · cases hinsert
      · rename_i harity
        split at hinsert
        · cases hinsert
        · cases hinsert
          exact keepsArity_putEntry ih (Decidable.not_not.mp harity)

theorem Reached.arity_get? {table : ForwardingTable} (htable : table.Reached)
    {source target : Signature} (hget : table.get? source = some target) :
    target.arity = source.arity := by
  obtain ⟨entry, hfind, rfl⟩ := Option.map_eq_some_iff.mp hget
  have hsource : entry.1 = source := by
    simpa using List.find?_some hfind
  rw [← hsource, htable.keepsArity entry (List.mem_of_find?_eq_some hfind)]

theorem Reached.arity_follow {table : ForwardingTable} (htable : table.Reached)
    (steps : Nat) (signature : Signature) :
    (table.follow steps signature).arity = signature.arity := by
  induction steps generalizing signature with
  | zero => rfl
  | succ steps ih =>
      unfold follow
      cases hget : table.get? signature with
      | none => rfl
      | some next =>
          simp only
          rw [ih, htable.arity_get? hget]

/-- The end of a chain has as many parameters as its beginning. -/
theorem Reached.arity_resolve? {table : ForwardingTable} (htable : table.Reached)
    {source target : Signature} (hresolve : table.resolve? source = some target) :
    target.arity = source.arity := by
  obtain ⟨next, hget, rfl⟩ := Option.map_eq_some_iff.mp hresolve
  rw [htable.arity_follow, htable.arity_get? hget]

end QueryPlan.ForwardingTable
