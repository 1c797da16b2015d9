import QueryPlan.Proofs.Rewrite.ForwardingChains

/-!
# The order of registration

Whether an entry is accepted depends on the entries that are there already.  For
new entries with distinct sources the order makes no difference all the same.
Every table on the way, in whatever order it is filled, has some of the entries
of one last table without cycles; a walk that came back to the source of an
accepted entry would be a cycle of the last table.
-/

namespace QueryPlan.ForwardingTable

/-- Inserts entries one after another, as long as none is refused. -/
def insertEach (table : ForwardingTable) :
    List (Signature × Signature) → Except ForwardingError ForwardingTable
  | [] => .ok table
  | (source, target) :: rest =>
      table.insert source target >>= fun later => later.insertEach rest

/-- Every entry of the one table is an entry of the other. -/
def Below (table final : ForwardingTable) : Prop :=
  ∀ source target, table.get? source = some target →
    final.get? source = some target

variable {table later final : ForwardingTable} {source target : Signature}
  {entries : List (Signature × Signature)}

theorem insertEach_cons_eq_ok_iff {rest : List (Signature × Signature)} :
    table.insertEach ((source, target) :: rest) = .ok later ↔
      ∃ middle, table.insert source target = .ok middle ∧
        middle.insertEach rest = .ok later := by
  rw [insertEach]
  cases table.insert source target <;> simp [bind, Except.bind]

theorem Reached.insertEach (htable : table.Reached)
    (hinsert : table.insertEach entries = .ok later) : later.Reached := by
  induction entries generalizing table with
  | nil =>
      obtain rfl := Except.ok.inj hinsert
      exact htable
  | cons entry rest ih =>
      obtain ⟨source, target⟩ := entry
      obtain ⟨middle, hfirst, hrest⟩ := insertEach_cons_eq_ok_iff.mp hinsert
      exact ih (.insert source target htable hfirst) hrest

/-! ## What was inserted -/

/-- Entries with distinct sources, none of which a table has yet. -/
structure Pending (table : ForwardingTable) (entries : List (Signature × Signature)) :
    Prop where
  distinct : (entries.map (·.1)).Nodup
  new : ∀ entry ∈ entries, table.get? entry.1 = none

theorem Pending.perm {reordered : List (Signature × Signature)}
    (hpending : table.Pending entries) (hperm : entries.Perm reordered) :
    table.Pending reordered where
  distinct := (hperm.map _).nodup_iff.mp hpending.distinct
  new entry hentry := hpending.new entry (hperm.mem_iff.mpr hentry)

/-- Setting the first of the pending entries leaves the others pending. -/
theorem Pending.put {rest : List (Signature × Signature)}
    (hpending : table.Pending ((source, target) :: rest)) :
    (table.put source target).Pending rest := by
  obtain ⟨hsource, hdistinct⟩ := List.nodup_cons.mp hpending.distinct
  refine ⟨hdistinct, ?_⟩
  intro entry hentry
  have hne : entry.1 ≠ source :=
    fun heq => hsource (List.mem_map.mpr ⟨entry, hentry, heq⟩)
  rw [get?_put, if_neg hne]
  exact hpending.new entry (List.mem_cons_of_mem _ hentry)

/-- The table after all insertions has the old entries, the inserted ones and no
others. -/
theorem Pending.get?_insertEach (hpending : table.Pending entries)
    (hinsert : table.insertEach entries = .ok later) :
    later.get? source = some target ↔
      (source, target) ∈ entries ∨ table.get? source = some target := by
  induction entries generalizing table with
  | nil =>
      obtain rfl := Except.ok.inj hinsert
      simp
  | cons entry rest ih =>
      obtain ⟨first, firstTarget⟩ := entry
      obtain ⟨middle, hfirst, hrest⟩ := insertEach_cons_eq_ok_iff.mp hinsert
      obtain ⟨-, -, rfl⟩ := insert_eq_ok_iff.mp hfirst
      have hnone := hpending.new (first, firstTarget) List.mem_cons_self
      rw [ih hpending.put hrest, get?_put, List.mem_cons, Prod.mk.injEq]
      by_cases hsource : source = first
      · subst hsource
        simp [hnone, or_comm, eq_comm]
      · simp [hsource]

theorem Pending.size_insertEach (hpending : table.Pending entries)
    (hinsert : table.insertEach entries = .ok later) :
    later.size = table.size + entries.length := by
  induction entries generalizing table with
  | nil =>
      obtain rfl := Except.ok.inj hinsert
      rfl
  | cons entry rest ih =>
      obtain ⟨first, firstTarget⟩ := entry
      obtain ⟨middle, hfirst, hrest⟩ := insertEach_cons_eq_ok_iff.mp hinsert
      obtain ⟨-, -, rfl⟩ := insert_eq_ok_iff.mp hfirst
      have hnone := hpending.new (first, firstTarget) List.mem_cons_self
      have hnew := (table.contains_eq_false_iff first).mpr hnone
      rw [ih hpending.put hrest, size_put, hnew, List.length_cons]
      simp only [Bool.false_eq_true, if_false]
      omega

theorem keepsArity_of_insertEach (hinsert : table.insertEach entries = .ok later) :
    KeepsArity entries := by
  induction entries generalizing table with
  | nil => simp [KeepsArity]
  | cons entry rest ih =>
      obtain ⟨first, firstTarget⟩ := entry
      obtain ⟨middle, hfirst, hrest⟩ := insertEach_cons_eq_ok_iff.mp hinsert
      exact List.forall_mem_cons.mpr ⟨(insert_eq_ok_iff.mp hfirst).1, ih hrest⟩

/-! ## Tables on the way -/

/-- A chain goes on in a table with more entries, from where it ended. -/
theorem Chain.goesOn (hbelow : table.Below final) (hfinal : final.Acyclic)
    {passed : List Signature} {first last : Signature}
    (hchain : table.Chain passed first last) :
    ∃ further finish, final.Chain (passed ++ further) first finish ∧
      final.Chain further last finish := by
  induction hchain with
  | @stop signature _ =>
      obtain ⟨further, finish, hfurther⟩ := hfinal signature
      exact ⟨further, finish, hfurther, hfurther⟩
  | pass hget _ ih =>
      obtain ⟨further, finish, hwhole, hfurther⟩ := ih
      exact ⟨further, finish, .pass (hbelow _ _ hget) hwhole, hfurther⟩

/-- An entry of a table without cycles is accepted by every table that has some
of its other entries. -/
theorem Below.insert (hbelow : table.Below final) (hfinal : final.Acyclic)
    (htable : table.Acyclic) (harity : source.arity = target.arity)
    (hget : final.get? source = some target) :
    table.insert source target = .ok (table.put source target) := by
  obtain ⟨passed, last, hchain⟩ := htable target
  obtain ⟨further, finish, hwhole, hfurther⟩ := hchain.goesOn hbelow hfinal
  refine insert_eq_ok_iff.mpr ⟨harity, ?_, rfl⟩
  rw [hchain.reaches_eq hchain.length_le_size, decide_eq_false_iff_not]
  intro hmet
  have hcycle : source ∈ passed ++ further := by
    rcases hmet with hpassed | rfl
    · exact List.mem_append_left further hpassed
    · -- The source has an entry in the last table, so the chain does not end there.
      cases hfurther with
      | stop hstop => simp [hget] at hstop
      | pass _ _ => simp
  exact (List.nodup_cons.mp (Chain.pass hget hwhole).nodup).1 hcycle

theorem Below.put (hbelow : table.Below final)
    (hget : final.get? source = some target) :
    (table.put source target).Below final := by
  intro first firstTarget hfirst
  rw [get?_put] at hfirst
  split at hfirst
  · rename_i heq
    obtain rfl := Option.some.inj hfirst
    rw [heq, hget]
  · exact hbelow first firstTarget hfirst

/-- Entries of a table without cycles are accepted one after another. -/
theorem Below.insertEach (hbelow : table.Below final) (hfinal : final.Acyclic)
    (htable : table.Acyclic) (harity : KeepsArity entries)
    (hget : ∀ entry ∈ entries, final.get? entry.1 = some entry.2) :
    ∃ later, table.insertEach entries = .ok later := by
  induction entries generalizing table with
  | nil => exact ⟨table, rfl⟩
  | cons entry rest ih =>
      obtain ⟨source, target⟩ := entry
      obtain ⟨hsource, harity⟩ := List.forall_mem_cons.mp harity
      obtain ⟨hentry, hget⟩ := List.forall_mem_cons.mp hget
      have hinsert := hbelow.insert hfinal htable hsource hentry
      obtain ⟨later, hlater⟩ := ih (hbelow.put hentry) (htable.insert hinsert) harity hget
      exact ⟨later, insertEach_cons_eq_ok_iff.mpr ⟨_, hinsert, hlater⟩⟩

/-! ## Tables with the same entries -/

theorem Chain.congr {passed : List Signature} {first last : Signature}
    (hchain : table.Chain passed first last)
    (hget : ∀ signature, final.get? signature = table.get? signature) :
    final.Chain passed first last := by
  induction hchain with
  | stop hstop => exact .stop ((hget _).trans hstop)
  | pass hnext _ ih => exact .pass ((hget _).trans hnext) ih

theorem Acyclic.resolve?_congr (htable : table.Acyclic)
    (hget : ∀ signature, final.get? signature = table.get? signature)
    (signature : Signature) :
    final.resolve? signature = table.resolve? signature := by
  obtain ⟨passed, last, hchain⟩ := htable signature
  exact hchain.resolve?_congr (hchain.congr hget)

/-- New entries with distinct sources that are accepted in one order are accepted
in every order, and make tables that give the same answers. -/
theorem registration_order_irrelevant {table later : ForwardingTable}
    (htable : table.Reached) {entries reordered : List (Signature × Signature)}
    (hdistinct : (entries.map (·.1)).Nodup)
    (hnew : ∀ entry ∈ entries, table.contains entry.1 = false)
    (hinsert : table.insertEach entries = .ok later)
    (hperm : entries.Perm reordered) :
    ∃ other, table.insertEach reordered = .ok other ∧ other.size = later.size ∧
      ∀ signature, other.get? signature = later.get? signature ∧
        other.resolve? signature = later.resolve? signature ∧
        other.contains signature = later.contains signature := by
  have hpending : table.Pending entries :=
    ⟨hdistinct, fun entry hentry =>
      (table.contains_eq_false_iff entry.1).mp (hnew entry hentry)⟩
  have hpending' := hpending.perm hperm
  have hlater := (htable.insertEach hinsert).acyclic
  have hbelow : table.Below later :=
    fun source target hget => (hpending.get?_insertEach hinsert).mpr (.inr hget)
  obtain ⟨other, hother⟩ : ∃ other, table.insertEach reordered = .ok other := by
    apply hbelow.insertEach hlater htable.acyclic
    · exact fun entry hentry =>
        keepsArity_of_insertEach hinsert entry (hperm.mem_iff.mpr hentry)
    · exact fun entry hentry =>
        (hpending.get?_insertEach hinsert).mpr (.inl (hperm.mem_iff.mpr hentry))
  have hget : ∀ signature, other.get? signature = later.get? signature := by
    intro signature
    apply Option.ext
    intro target
    rw [hpending'.get?_insertEach hother, hpending.get?_insertEach hinsert,
      hperm.mem_iff]
  refine ⟨other, hother, ?_, ?_⟩
  · rw [hpending'.size_insertEach hother, hpending.size_insertEach hinsert,
      hperm.length_eq]
  · intro signature
    refine ⟨hget signature, hlater.resolve?_congr hget signature, ?_⟩
    rw [contains, contains, hget]

/-- Three entries that make one chain into the standard table, registered from its
beginning and from its end. -/
theorem registration_order_irrelevant_chain :
    ∃ (later other : ForwardingTable) (entries : List (Signature × Signature))
      (root last : Signature),
      (entries.map (·.1)).Nodup ∧
        (∀ entry ∈ entries, standard.contains entry.1 = false) ∧
        standard.insertEach entries = .ok later ∧
        standard.insertEach entries.reverse = .ok other ∧ other.size = later.size ∧
        later.resolve? root = some last ∧ other.resolve? root = some last := by
  let root : Signature := ⟨none, "root", ["float"]⟩
  let half : Signature := ⟨none, "half", ["float"]⟩
  let sqrt := (Method.unary "Sqrt").signature "float" "float"
  let mathSqrt := (Method.unary "Sqrt").signature "MathF" "float"
  let last : Signature := ⟨some "Fast", "Sqrt", ["float"]⟩
  let entries := [(root, half), (half, sqrt), (mathSqrt, last)]
  let table := ((standard.put root half).put half sqrt).put mathSqrt last
  have hdistinct : (entries.map (·.1)).Nodup := by decide
  have hnew : ∀ entry ∈ entries, standard.contains entry.1 = false := by
    decide +kernel
  have hinsert : standard.insertEach entries = .ok table := by
    have hroot : standard.insert root half = .ok (standard.put root half) :=
      insert_eq_ok_iff.mpr ⟨rfl, by decide +kernel, rfl⟩
    have hhalf : (standard.put root half).insert half sqrt =
        .ok ((standard.put root half).put half sqrt) :=
      insert_eq_ok_iff.mpr ⟨rfl, by decide +kernel, rfl⟩
    have hmath : ((standard.put root half).put half sqrt).insert mathSqrt last =
        .ok table :=
      insert_eq_ok_iff.mpr ⟨rfl, by decide +kernel, rfl⟩
    exact insertEach_cons_eq_ok_iff.mpr ⟨_, hroot, insertEach_cons_eq_ok_iff.mpr
      ⟨_, hhalf, insertEach_cons_eq_ok_iff.mpr ⟨_, hmath, rfl⟩⟩⟩
  have hresolve : table.resolve? root = some last := by decide +kernel
  obtain ⟨other, hother, hsize, hanswers⟩ := registration_order_irrelevant .standard
    hdistinct hnew hinsert entries.reverse_perm.symm
  exact ⟨table, other, entries, root, last, hdistinct, hnew, hinsert, hother, hsize,
    hresolve, (hanswers root).2.1.trans hresolve⟩

end QueryPlan.ForwardingTable
