import Mathlib.Data.List.Nodup
import Mathlib.Data.List.Perm.Subperm
import QueryPlan.Proofs.Rewrite.ForwardingTable

/-!
# Chains of forwarding entries

A chain follows the entries of a table from one signature until none is left.
In every reached table each signature begins a chain: the standard table comes
closer to `Math` with every entry, and an insertion is accepted only when the
chain from the new target does not come by the new source.

A chain passes no signature twice, so it is no longer than the table, and the
bounded walks of insertion and resolution end where unbounded ones would.
-/

namespace QueryPlan.ForwardingTable

/-- Following the entries from one signature to another that has none, with the
signatures passed on the way. -/
inductive Chain (table : ForwardingTable) :
    List Signature → Signature → Signature → Prop
  | stop {signature : Signature} :
      table.get? signature = none → Chain table [] signature signature
  | pass {signature next last : Signature} {rest : List Signature} :
      table.get? signature = some next → Chain table rest next last →
      Chain table (signature :: rest) signature last

/-- Following the entries from a signature, with no bound on the steps, until
`goal` is met or no entry is left; the truth value tells which came first. -/
inductive Search (table : ForwardingTable) (goal : Signature) :
    Signature → Bool → Prop
  | met : Search table goal goal true
  | stop {signature : Signature} :
      signature ≠ goal → table.get? signature = none →
      Search table goal signature false
  | pass {signature next : Signature} {met : Bool} :
      signature ≠ goal → table.get? signature = some next →
      Search table goal next met → Search table goal signature met

theorem Search.unique {table : ForwardingTable} {goal signature : Signature}
    {met other : Bool} (hsearch : table.Search goal signature met)
    (hother : table.Search goal signature other) : met = other := by
  induction hsearch with
  | met =>
      cases hother with
      | met => rfl
      | stop hne _ => exact absurd rfl hne
      | pass hne _ _ => exact absurd rfl hne
  | stop hne hstop =>
      cases hother with
      | met => exact absurd rfl hne
      | stop _ _ => rfl
      | pass _ hget _ => simp [hstop] at hget
  | pass hne hget _ ih =>
      cases hother with
      | met => exact absurd rfl hne
      | stop _ hstop => simp [hget] at hstop
      | pass _ hget' hrest =>
          obtain rfl := Option.some.inj (hget.symm.trans hget')
          exact ih hrest

def Acyclic (table : ForwardingTable) : Prop :=
  ∀ signature, ∃ passed last, table.Chain passed signature last

namespace Chain

variable {table : ForwardingTable} {passed : List Signature}
  {first last goal : Signature}

theorem get?_last (hchain : table.Chain passed first last) :
    table.get? last = none := by
  induction hchain with
  | stop hstop => exact hstop
  | pass _ _ ih => exact ih

theorem unique (hchain : table.Chain passed first last) {others : List Signature}
    {other : Signature} (hother : table.Chain others first other) :
    passed = others ∧ last = other := by
  induction hchain generalizing others with
  | stop hstop =>
      cases hother with
      | stop _ => exact ⟨rfl, rfl⟩
      | pass hget _ => simp [hstop] at hget
  | pass hget _ ih =>
      cases hother with
      | stop hstop => simp [hget] at hstop
      | pass hget' hrest =>
          obtain rfl := Option.some.inj (hget.symm.trans hget')
          obtain ⟨rfl, rfl⟩ := ih hrest
          exact ⟨rfl, rfl⟩

/-- The rest of a chain is the chain from any signature that it passes. -/
theorem exists_suffix (hchain : table.Chain passed first last)
    (hgoal : goal ∈ passed) :
    ∃ rest, goal :: rest <:+ passed ∧ table.Chain (goal :: rest) goal last := by
  induction hchain with
  | stop _ => simp at hgoal
  | pass hget hrest ih =>
      rcases List.mem_cons.mp hgoal with rfl | hgoal
      · exact ⟨_, List.suffix_refl _, .pass hget hrest⟩
      · obtain ⟨rest, hsuffix, hchain⟩ := ih hgoal
        exact ⟨rest, hsuffix.trans (List.suffix_cons _ _), hchain⟩

theorem nodup (hchain : table.Chain passed first last) : passed.Nodup := by
  induction hchain with
  | stop _ => exact List.nodup_nil
  | pass hget hrest ih =>
      refine List.nodup_cons.mpr ⟨?_, ih⟩
      intro hmem
      -- Coming by its first signature again, a chain would be its own proper suffix.
      obtain ⟨shorter, hsuffix, hagain⟩ := hrest.exists_suffix hmem
      have hsame := (hagain.unique (.pass hget hrest)).1
      have hlength := hsuffix.length_le
      rw [hsame, List.length_cons] at hlength
      omega

theorem mem_sources (hchain : table.Chain passed first last)
    (hgoal : goal ∈ passed) : goal ∈ table.entries.map (·.1) := by
  obtain ⟨rest, -, hrest⟩ := hchain.exists_suffix hgoal
  cases hrest with
  | pass hget _ =>
      obtain ⟨entry, hfind, -⟩ := Option.map_eq_some_iff.mp hget
      have hsource : entry.1 = goal := by
        simpa using List.find?_some hfind
      exact List.mem_map.mpr ⟨entry, List.mem_of_find?_eq_some hfind, hsource⟩

theorem length_le_size (hchain : table.Chain passed first last) :
    passed.length ≤ table.size := by
  have hsubperm : passed.Subperm (table.entries.map (·.1)) :=
    hchain.nodup.subperm fun _ hgoal => hchain.mem_sources hgoal
  simpa [size] using hsubperm.length_le

/-! ## Walks along a chain -/

theorem follow_eq (hchain : table.Chain passed first last) {steps : Nat}
    (hsteps : passed.length ≤ steps) : table.follow steps first = last := by
  induction hchain generalizing steps with
  | stop hstop => cases steps <;> simp [follow, hstop]
  | pass hget _ ih =>
      cases steps with
      | zero => simp at hsteps
      | succ steps =>
          rw [follow, hget]
          exact ih (by simpa using hsteps)

theorem reaches_eq (hchain : table.Chain passed first last) {steps : Nat}
    (hsteps : passed.length ≤ steps) (goal : Signature) :
    table.reaches goal steps first = decide (goal ∈ passed ∨ goal = last) := by
  induction hchain generalizing steps with
  | @stop signature hstop =>
      cases steps <;> simp [reaches, hstop, beq_eq_decide, eq_comm (a := signature)]
  | @pass signature next last rest hget _ ih =>
      cases steps with
      | zero => simp at hsteps
      | succ steps =>
          have hrest := ih (Nat.le_of_succ_le_succ hsteps)
          simp [reaches, hget, hrest, beq_eq_decide, or_assoc, eq_comm (a := signature)]

theorem search (hchain : table.Chain passed first last) (goal : Signature) :
    table.Search goal first (decide (goal ∈ passed ∨ goal = last)) := by
  induction hchain with
  | @stop signature hstop =>
      by_cases hgoal : goal = signature
      · simpa [hgoal] using Search.met
      · simpa [hgoal] using Search.stop (Ne.symm hgoal) hstop
  | @pass signature next last rest hget _ ih =>
      by_cases hgoal : goal = signature
      · simpa [hgoal] using Search.met
      · simpa [hgoal] using Search.pass (Ne.symm hgoal) hget ih

theorem resolve?_eq (hchain : table.Chain passed first last)
    (hget : table.get? first ≠ none) : table.resolve? first = some last := by
  have hlength := hchain.length_le_size
  cases hchain with
  | stop hstop => exact absurd hstop hget
  | pass hnext hrest =>
      rw [List.length_cons] at hlength
      rw [resolve?, hnext, Option.map_some, hrest.follow_eq (by omega)]

end Chain

theorem resolve?_eq_none_iff (table : ForwardingTable) (signature : Signature) :
    table.resolve? signature = none ↔ table.get? signature = none := by
  simp [resolve?]

/-- Two tables with one chain from a signature resolve it alike. -/
theorem Chain.resolve?_congr {table other : ForwardingTable} {passed : List Signature}
    {first last : Signature} (hchain : table.Chain passed first last)
    (hother : other.Chain passed first last) :
    other.resolve? first = table.resolve? first := by
  by_cases hentry : table.get? first = none
  · obtain ⟨-, rfl⟩ := hchain.unique (.stop hentry)
    rw [(table.resolve?_eq_none_iff last).mpr hentry,
      (other.resolve?_eq_none_iff last).mpr hother.get?_last]
  · have hentry' : other.get? first ≠ none := by
      intro hnone
      obtain ⟨-, rfl⟩ := hother.unique (.stop hnone)
      exact hentry hchain.get?_last
    rw [hchain.resolve?_eq hentry, hother.resolve?_eq hentry']

theorem contains_eq_false_iff (table : ForwardingTable) (signature : Signature) :
    table.contains signature = false ↔ table.get? signature = none := by
  simp [contains]

/-! ## Insertion -/

variable {table later : ForwardingTable} {source target : Signature}

theorem get?_put (table : ForwardingTable) (source target signature : Signature) :
    (table.put source target).get? signature =
      if signature = source then some target else table.get? signature := by
  suffices hentries : ∀ entries : List (Signature × Signature),
      ((putEntry source target entries).find? (·.1 = signature)).map (·.2) =
        if signature = source then some target
        else (entries.find? (·.1 = signature)).map (·.2) from
    hentries table.entries
  intro entries
  induction entries with
  | nil => by_cases hsource : signature = source <;> simp [putEntry, hsource, eq_comm]
  | cons entry rest ih =>
      obtain ⟨first, firstTarget⟩ := entry
      by_cases hfirst : first = source
      · subst hfirst
        by_cases hsource : signature = first
        · simp [putEntry, hsource]
        · simp [putEntry, hsource, Ne.symm hsource]
      · by_cases hsignature : first = signature
        · have hsource : signature ≠ source := hsignature ▸ hfirst
          simp [putEntry, hsignature, hsource]
        · simpa [putEntry, hfirst, hsignature] using ih

/-- Setting an entry makes a table longer unless the source had one. -/
theorem size_put (table : ForwardingTable) (source target : Signature) :
    (table.put source target).size =
      if table.contains source then table.size else table.size + 1 := by
  suffices hentries : ∀ entries : List (Signature × Signature),
      (putEntry source target entries).length =
        if ((entries.find? (·.1 = source)).map (·.2)).isSome then entries.length
        else entries.length + 1 from
    hentries table.entries
  intro entries
  induction entries with
  | nil => rfl
  | cons entry rest ih =>
      obtain ⟨first, firstTarget⟩ := entry
      by_cases hfirst : first = source
      · simp [putEntry, hfirst]
      · rw [putEntry, if_neg hfirst, List.length_cons, ih,
          List.find?_cons_of_neg (by simpa using hfirst), List.length_cons]
        split <;> rfl

theorem insert_eq_ok_iff :
    table.insert source target = .ok later ↔
      source.arity = target.arity ∧
        table.reaches source table.size target = false ∧
        later = table.put source target := by
  unfold insert
  by_cases harity : source.arity = target.arity
  · cases hreaches : table.reaches source table.size target <;>
      simp [harity, eq_comm]
  · simp [harity]

/-- A chain that does not come by the source of an entry is kept when the entry
is set. -/
theorem Chain.put {passed : List Signature} {first last : Signature}
    (hchain : table.Chain passed first last) (hpassed : source ∉ passed)
    (hlast : source ≠ last) (target : Signature) :
    (table.put source target).Chain passed first last := by
  induction hchain with
  | stop hstop =>
      apply Chain.stop
      rw [get?_put, if_neg (Ne.symm hlast)]
      exact hstop
  | pass hget _ ih =>
      rw [List.mem_cons, not_or] at hpassed
      refine Chain.pass ?_ (ih hpassed.2 hlast)
      rw [get?_put, if_neg (Ne.symm hpassed.1)]
      exact hget

/-- A chain that comes by the source of an entry goes on to where the chain from the
target ends when the entry is set. -/
theorem Chain.redirect {passed way : List Signature} {first last finish : Signature}
    (hchain : table.Chain passed first last) (hmet : source ∈ passed ∨ source = last)
    (htarget : table.Chain way target finish) (hway : ¬ (source ∈ way ∨ source = finish)) :
    ∃ rest, (table.put source target).Chain (first :: rest) first finish := by
  rw [not_or] at hway
  have hsource : (table.put source target).Chain (source :: way) source finish :=
    .pass (by simp [get?_put]) (htarget.put hway.1 hway.2 target)
  induction hchain with
  | stop _ =>
      obtain rfl := hmet.resolve_left List.not_mem_nil
      exact ⟨way, hsource⟩
  | @pass signature next last rest hget _ ih =>
      by_cases heq : source = signature
      · rw [← heq]
        exact ⟨way, hsource⟩
      · obtain ⟨rest, hrest⟩ := ih (by simpa [heq] using hmet)
        exact ⟨_, .pass (by rw [get?_put, if_neg (Ne.symm heq), hget]) hrest⟩

/-- An entry makes no cycle if the walk from its target does not come by its source. -/
theorem Acyclic.put (htable : table.Acyclic)
    (hreaches : table.reaches source table.size target = false) :
    (table.put source target).Acyclic := by
  obtain ⟨way, finish, htarget⟩ := htable target
  rw [htarget.reaches_eq htarget.length_le_size, decide_eq_false_iff_not] at hreaches
  intro signature
  obtain ⟨passed, last, hchain⟩ := htable signature
  by_cases hmet : source ∈ passed ∨ source = last
  · obtain ⟨rest, hrest⟩ := hchain.redirect hmet htarget hreaches
    exact ⟨_, _, hrest⟩
  · rw [not_or] at hmet
    exact ⟨_, _, hchain.put hmet.1 hmet.2 target⟩

theorem Acyclic.insert (htable : table.Acyclic)
    (hinsert : table.insert source target = .ok later) : later.Acyclic := by
  obtain ⟨-, hreaches, rfl⟩ := insert_eq_ok_iff.mp hinsert
  exact htable.put hreaches

/-! ## Reached tables -/

/-- How far a function is from `Math`, where the standard entries lead. -/
def distance : Option String → Nat
  | some "Math" => 0
  | some "MathF" => 1
  | _ => 2

/-- Every entry leads closer to `Math`. -/
def Approaches (entries : List (Signature × Signature)) : Prop :=
  ∀ entry ∈ entries, distance entry.2.declaring < distance entry.1.declaring

theorem approaches_forwarded {source target : String} (type : String)
    (methods : List Method) (hcloser : distance (some target) < distance (some source)) :
    Approaches (forwarded source type target methods) := by
  intro entry hentry
  obtain ⟨method, -, rfl⟩ := List.mem_map.mp hentry
  exact hcloser

theorem approaches_standard : Approaches standard.entries := by
  have hsigned : ∀ type ∈ ["int", "long", "sbyte", "short"],
      distance (some "Math") < distance (some type) := by decide
  have hunsigned : ∀ type ∈ ["byte", "uint", "ulong", "ushort"],
      distance (some "Math") < distance (some type) := by decide
  simp only [Approaches, standard, List.forall_mem_append, List.forall_mem_flatMap,
    List.forall_mem_singleton, and_assoc]
  exact ⟨fun type htype => approaches_forwarded type _ (hsigned type htype),
    fun type htype => approaches_forwarded type _ (hunsigned type htype),
    approaches_forwarded "decimal" _ (by decide),
    approaches_forwarded "double" _ (by decide), by decide,
    approaches_forwarded "float" _ (by decide),
    approaches_forwarded "float" _ (by decide), by decide,
    approaches_forwarded "float" _ (by decide)⟩

theorem acyclic_of_approaches {entries : List (Signature × Signature)}
    (hentries : Approaches entries) : Acyclic ⟨entries⟩ := by
  intro signature
  induction hdistance : distance signature.declaring using Nat.strongRecOn
    generalizing signature with
  | _ n ih =>
      cases hget : get? ⟨entries⟩ signature with
      | none => exact ⟨[], signature, .stop hget⟩
      | some next =>
          obtain ⟨entry, hfind, rfl⟩ := Option.map_eq_some_iff.mp hget
          have hsource : entry.1 = signature := by
            simpa using List.find?_some hfind
          have hcloser := hentries entry (List.mem_of_find?_eq_some hfind)
          rw [hsource, hdistance] at hcloser
          obtain ⟨rest, last, hrest⟩ := ih _ hcloser entry.2 rfl
          exact ⟨_, last, .pass hget hrest⟩

theorem Reached.acyclic (htable : table.Reached) : table.Acyclic := by
  induction htable with
  | empty => exact fun signature => ⟨[], signature, .stop rfl⟩
  | standard => exact acyclic_of_approaches approaches_standard
  | insert source target _ hinsert ih => exact ih.insert hinsert

/-- No entry leads on from where a chain of entries ends. -/
theorem Reached.get?_of_resolve? (htable : table.Reached)
    {signature target : Signature} (hresolve : table.resolve? signature = some target) :
    table.get? target = none := by
  obtain ⟨passed, last, hchain⟩ := htable.acyclic signature
  have hentry : table.get? signature ≠ none := by
    rw [ne_eq, ← table.resolve?_eq_none_iff, hresolve]
    exact Option.some_ne_none target
  obtain rfl : last = target :=
    Option.some.inj ((hchain.resolve?_eq hentry).symm.trans hresolve)
  exact hchain.get?_last

theorem Reached.ne_of_resolve? (htable : table.Reached) {signature target : Signature}
    (hresolve : table.resolve? signature = some target) : target ≠ signature := by
  rintro rfl
  have hstop := htable.get?_of_resolve? hresolve
  rw [← table.resolve?_eq_none_iff, hresolve] at hstop
  cases hstop

/-- The table after some insertions, of which those that are refused leave it as
it was. -/
def insertAll (table : ForwardingTable) :
    List (Signature × Signature) → ForwardingTable
  | [] => table
  | (source, target) :: rest =>
      match table.insert source target with
      | .ok later => later.insertAll rest
      | .error _ => table.insertAll rest

theorem Reached.insertAll (htable : table.Reached)
    (entries : List (Signature × Signature)) : (table.insertAll entries).Reached := by
  induction entries generalizing table with
  | nil => exact htable
  | cons entry rest ih =>
      obtain ⟨source, target⟩ := entry
      unfold ForwardingTable.insertAll
      cases hinsert : table.insert source target with
      | error fault => exact ih htable
      | ok later => exact ih (.insert source target htable hinsert)

/-- Whatever is inserted into the empty or the standard table, the entries lead
from each signature to an end.  Resolution answers this end, if there is an entry
at all, and the search of an insertion gives the one answer that it would give
without a bound. -/
theorem chain_ends {base table : ForwardingTable}
    (hbase : base = empty ∨ base = standard) {entries : List (Signature × Signature)}
    (htable : base.insertAll entries = table) (signature : Signature) :
    (table.resolve? signature = none ↔ table.get? signature = none) ∧
      (∃ passed last, table.Chain passed signature last ∧
        table.get? last = none ∧ last.arity = signature.arity ∧
        (table.get? signature ≠ none → table.resolve? signature = some last)) ∧
      ∀ goal met, table.Search goal signature met ↔
        table.reaches goal table.size signature = met := by
  have hreached : table.Reached := by
    rw [← htable]
    rcases hbase with rfl | rfl
    · exact Reached.empty.insertAll entries
    · exact Reached.standard.insertAll entries
  obtain ⟨passed, last, hchain⟩ := hreached.acyclic signature
  have harity : last.arity = signature.arity := by
    rw [← hchain.follow_eq hchain.length_le_size, hreached.arity_follow]
  refine ⟨table.resolve?_eq_none_iff signature,
    ⟨passed, last, hchain, hchain.get?_last, harity, hchain.resolve?_eq⟩, ?_⟩
  intro goal met
  rw [hchain.reaches_eq hchain.length_le_size]
  constructor
  · exact (hchain.search goal).unique
  · rintro rfl
    exact hchain.search goal

/-- A standard entry that is overwritten, with an insertion refused in between. -/
theorem chain_ends_overwritten :
    ∃ (table : ForwardingTable) (sqrt root fast : Signature) (passed : List Signature),
      standard.insertAll [(sqrt, root), (root, sqrt), (root, fast)] = table ∧
        standard.get? sqrt ≠ none ∧ table.get? sqrt = some root ∧
        table.Chain passed sqrt fast ∧ table.get? fast = none ∧
        fast.arity = sqrt.arity ∧ table.resolve? sqrt = some fast ∧
        table.Search root sqrt true := by
  let sqrt := (Method.unary "Sqrt").signature "double" "double"
  let root : Signature := ⟨none, "root", ["double"]⟩
  let fast : Signature := ⟨some "Fast", "Sqrt", ["double"]⟩
  let table := standard.insertAll [(sqrt, root), (root, sqrt), (root, fast)]
  have hget : table.get? sqrt = some root := by decide +kernel
  have hresolve : table.resolve? sqrt = some fast := by decide +kernel
  have htable : standard.insertAll [(sqrt, root), (root, sqrt), (root, fast)] = table :=
    rfl
  obtain ⟨-, ⟨passed, last, hchain, hlast, harity, hanswer⟩, hsearch⟩ :=
    chain_ends (.inr rfl) htable sqrt
  obtain rfl : last = fast :=
    Option.some.inj ((hanswer (by simp [hget])).symm.trans hresolve)
  exact ⟨table, sqrt, root, fast, passed, rfl, by decide +kernel, hget, hchain, hlast,
    harity, hresolve, (hsearch root true).mpr (by decide +kernel)⟩

end QueryPlan.ForwardingTable
