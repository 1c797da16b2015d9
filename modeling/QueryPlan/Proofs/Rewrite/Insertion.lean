import Mathlib.Logic.Function.Basic
import Mathlib.Logic.Relation
import QueryPlan.Proofs.Rewrite.ForwardingChains

/-!
# What an insertion does

An insertion walks along the old table, in which the source may have an entry that
is about to be overwritten.  It refuses an entry exactly when the new table would
have a cycle: a cycle of the new table goes through the new entry, and the way back
from its target to its source is one of the old table, up to where it first meets
the source.

An accepted entry redirects the chains that come by its source, and no others.
-/

namespace QueryPlan.ForwardingTable

open Relation

/-- The look-ups of a table lead from one signature to another. -/
def Points (next : Signature → Option Signature) (source target : Signature) : Prop :=
  next source = some target

/-- Following the look-ups leads from some signature back to it. -/
def Cyclic (next : Signature → Option Signature) : Prop :=
  ∃ signature, TransGen (Points next) signature signature

/-- Where the chain from a signature ends, which is the signature itself if it has no
entry. -/
def endOf (table : ForwardingTable) (signature : Signature) : Signature :=
  (table.resolve? signature).getD signature

variable {table later : ForwardingTable} {source target : Signature}

/-! ## Chains as paths -/

namespace Chain

variable {passed : List Signature} {first last goal : Signature}

/-- A chain comes by the signatures to which the entries lead. -/
theorem reflTransGen_iff (hchain : table.Chain passed first last) :
    ReflTransGen (Points table.get?) first goal ↔ goal ∈ passed ∨ goal = last := by
  induction hchain with
  | stop hstop =>
      rw [ReflTransGen.cases_head_iff]
      simp [Points, hstop, eq_comm]
  | pass hget _ ih =>
      rw [ReflTransGen.cases_head_iff]
      simp [Points, hget, ih, or_assoc, eq_comm]

theorem not_transGen (hchain : table.Chain passed first last) :
    ¬ TransGen (Points table.get?) first first := by
  rw [TransGen.head'_iff]
  rintro ⟨next, hnext, hback⟩
  cases hchain with
  | stop hstop => simp [Points, hstop] at hnext
  | pass hget hrest =>
      obtain rfl := Option.some.inj (hget.symm.trans hnext)
      rcases hrest.reflTransGen_iff.mp hback with hpassed | rfl
      · exact (List.nodup_cons.mp (Chain.pass hget hrest).nodup).1 hpassed
      · simp [hrest.get?_last] at hget

theorem get?_ne_none {rest : List Signature} (hchain : table.Chain (first :: rest) first last) :
    table.get? first ≠ none := by
  cases hchain with
  | pass hget _ => simp [hget]

theorem endOf_eq (hchain : table.Chain passed first last) : table.endOf first = last := by
  by_cases hentry : table.get? first = none
  · obtain ⟨-, rfl⟩ := hchain.unique (.stop hentry)
    rw [endOf, (table.resolve?_eq_none_iff last).mpr hentry, Option.getD_none]
  · rw [endOf, hchain.resolve?_eq hentry, Option.getD_some]

end Chain

theorem Acyclic.not_cyclic (htable : table.Acyclic) : ¬ Cyclic table.get? := by
  rintro ⟨signature, hcycle⟩
  obtain ⟨passed, last, hchain⟩ := htable signature
  exact hchain.not_transGen hcycle

theorem Acyclic.reaches_eq_true_iff (htable : table.Acyclic) :
    table.reaches source table.size target = true ↔
      ReflTransGen (Points table.get?) target source := by
  obtain ⟨passed, last, hchain⟩ := htable target
  rw [hchain.reaches_eq hchain.length_le_size, decide_eq_true_iff,
    hchain.reflTransGen_iff]

/-! ## Cycles of the new table -/

theorem get?_put_eq_update (table : ForwardingTable) (source target : Signature) :
    (table.put source target).get? = Function.update table.get? source (some target) := by
  funext signature
  rw [get?_put, Function.update_apply]

/-- A way to the source of a new entry is kept up to its first visit there, where it
may end. -/
theorem reflTransGen_update {next : Signature → Option Signature} {first : Signature}
    (hway : ReflTransGen (Points next) first source) (target : Signature) :
    ReflTransGen (Points (Function.update next source (some target))) first source := by
  induction hway using ReflTransGen.head_induction_on with
  | refl => exact .refl
  | @head signature middle hstep _ ih =>
      by_cases heq : signature = source
      · -- From here the new entry leads elsewhere; the way ends.
        rw [heq]
      · exact .head ((Function.update_of_ne heq _ next).trans hstep) ih

theorem cyclic_update_of_reflTransGen {next : Signature → Option Signature}
    (hway : ReflTransGen (Points next) target source) :
    Cyclic (Function.update next source (some target)) := by
  have hentry : Function.update next source (some target) source = some target :=
    Function.update_self source (some target) next
  exact ⟨source, TransGen.head' hentry (reflTransGen_update hway target)⟩

theorem Acyclic.cyclic_update_iff (htable : table.Acyclic) :
    Cyclic (Function.update table.get? source (some target)) ↔
      table.reaches source table.size target = true := by
  constructor
  · intro hcyclic
    by_contra hreaches
    have hput := htable.put (Bool.eq_false_iff.mpr hreaches)
    rw [← get?_put_eq_update] at hcyclic
    exact hput.not_cyclic hcyclic
  · exact fun hreaches => cyclic_update_of_reflTransGen (htable.reaches_eq_true_iff.mp hreaches)

theorem register_eq (table : ForwardingTable) (source target : Signature) :
    register source target table =
      match table.insert source target with
      | .ok later => .ok ⟨⟩ later
      | .error fault => .error fault table := by
  unfold register insert
  by_cases harity : source.arity = target.arity
  · simp only [harity, ne_eq, not_true_eq_false, if_false]
    -- The table that is read is the one given.
    change EStateM.bind (fun table => .ok table table) _ table = _
    simp only [EStateM.bind]
    cases hreaches : table.reaches source table.size target <;> rfl
  · simp only [harity, ne_eq, not_false_eq_true, if_true]
    rfl

/-- Inserting an entry into a reached table.  It is refused over the numbers of
parameters exactly when they differ; otherwise it is refused over a cycle exactly when
the table with this entry set, instead of any old one of its source, would have a
cycle; otherwise it is set, and nothing else is changed.  A refused entry leaves the
table as it was.  An entry from a signature to itself is a cycle. -/
theorem register_refuses_exactly {table : ForwardingTable} (htable : table.Reached)
    (source target : Signature) :
    (∀ after, register source target table = .error (.arityMismatch source target) after ↔
      source.arity ≠ target.arity ∧ after = table) ∧
    (∀ after, register source target table = .error (.cycle source) after ↔
      source.arity = target.arity ∧
        Cyclic (Function.update table.get? source (some target)) ∧ after = table) ∧
    (∀ after, register source target table = .ok ⟨⟩ after ↔
      source.arity = target.arity ∧
        ¬ Cyclic (Function.update table.get? source (some target)) ∧
        after = table.put source target) ∧
    (table.put source target).get? = Function.update table.get? source (some target) ∧
    (table.put source target).size =
      (if table.contains source then table.size else table.size + 1) ∧
    Cyclic (Function.update table.get? source (some source)) := by
  refine ⟨?_, ?_, ?_, table.get?_put_eq_update source target, table.size_put source target,
    cyclic_update_of_reflTransGen .refl⟩
  all_goals
    intro after
    rw [register_eq, insert]
    by_cases harity : source.arity = target.arity
    · cases hreaches : table.reaches source table.size target <;>
        simp [harity, hreaches, htable.acyclic.cyclic_update_iff, eq_comm]
    · simp [harity, eq_comm]

/-- An entry in the middle of a chain that is overwritten, after it was tried to make a
cycle with the entry before it. -/
theorem register_refuses_exactly_overwriting :
    ∃ (table after : ForwardingTable) (root half fast other : Signature),
      table.Reached ∧ table.get? root = some half ∧ table.get? half ≠ none ∧
        register half root table = .error (.cycle half) table ∧
        Cyclic (Function.update table.get? half (some root)) ∧
        register half other table = .error (.arityMismatch half other) table ∧
        register half fast table = .ok ⟨⟩ after ∧
        after.get? = Function.update table.get? half (some fast) ∧
        after.size = table.size := by
  let root : Signature := ⟨none, "root", ["float"]⟩
  let half : Signature := ⟨none, "half", ["float"]⟩
  let sqrt : Signature := ⟨some "MathF", "Sqrt", ["float"]⟩
  let fast : Signature := ⟨some "Fast", "Sqrt", ["float"]⟩
  let other : Signature := ⟨none, "half", []⟩
  let table : ForwardingTable := ⟨[(root, half), (half, sqrt)]⟩
  have hroot : Reached ⟨[(root, half)]⟩ := .insert root half .empty rfl
  have htable : table.Reached := .insert half sqrt hroot rfl
  obtain ⟨-, hcycle, -⟩ := register_refuses_exactly htable half root
  obtain ⟨harity, -⟩ := register_refuses_exactly htable half other
  obtain ⟨-, -, hset, hget, hsize, -⟩ := register_refuses_exactly htable half fast
  have hback : register half root table = .error (.cycle half) table := rfl
  have hfast : register half fast table = .ok ⟨⟩ (table.put half fast) := rfl
  exact ⟨table, table.put half fast, root, half, fast, other, htable, rfl, by decide, hback,
    ((hcycle table).mp hback).2.1, (harity table).mpr ⟨by decide, rfl⟩,
    hfast, hget, hsize⟩

/-! ## Redirected chains -/

/-- An accepted entry leads every chain that comes by its source, the source itself
included, to where the old chain from its target ends.  All other signatures are
resolved as before. -/
theorem insert_redirects {table later : ForwardingTable} (htable : table.Reached)
    {source target : Signature} (hinsert : table.insert source target = .ok later)
    (signature : Signature) :
    (ReflTransGen (Points table.get?) signature source →
      later.resolve? signature = some (table.endOf target)) ∧
    (¬ ReflTransGen (Points table.get?) signature source →
      later.resolve? signature = table.resolve? signature) := by
  obtain ⟨-, hreaches, rfl⟩ := insert_eq_ok_iff.mp hinsert
  obtain ⟨way, finish, htarget⟩ := htable.acyclic target
  obtain ⟨passed, last, hchain⟩ := htable.acyclic signature
  rw [htarget.reaches_eq htarget.length_le_size, decide_eq_false_iff_not] at hreaches
  rw [hchain.reflTransGen_iff, htarget.endOf_eq]
  constructor
  · intro hmet
    obtain ⟨rest, hrest⟩ := hchain.redirect hmet htarget hreaches
    exact hrest.resolve?_eq hrest.get?_ne_none
  · intro hmet
    rw [not_or] at hmet
    exact hchain.resolve?_congr (hchain.put hmet.1 hmet.2 target)

/-- The middle one of three entries of a chain is overwritten. -/
theorem insert_redirects_middle :
    ∃ (table later : ForwardingTable) (root half third sqrt fast last : Signature),
      table.Reached ∧ table.insert half fast = .ok later ∧
        ReflTransGen (Points table.get?) root half ∧
        ¬ ReflTransGen (Points table.get?) third half ∧
        table.resolve? root = some sqrt ∧ table.resolve? fast = some last ∧
        later.resolve? root = some last ∧ later.resolve? half = some last ∧
        later.resolve? third = some sqrt := by
  let root : Signature := ⟨none, "root", ["float"]⟩
  let half : Signature := ⟨none, "half", ["float"]⟩
  let third : Signature := ⟨none, "third", ["float"]⟩
  let sqrt : Signature := ⟨some "MathF", "Sqrt", ["float"]⟩
  let fast : Signature := ⟨some "Fast", "Sqrt", ["float"]⟩
  let last : Signature := ⟨some "Fast", "Root", ["float"]⟩
  have hroot : Reached ⟨[(root, half)]⟩ := .insert root half .empty rfl
  have hhalf : Reached ⟨[(root, half), (half, third)]⟩ := .insert half third hroot rfl
  have hthird : Reached ⟨[(root, half), (half, third), (third, sqrt)]⟩ :=
    .insert third sqrt hhalf rfl
  let table : ForwardingTable :=
    ⟨[(root, half), (half, third), (third, sqrt), (fast, last)]⟩
  have htable : table.Reached := .insert fast last hthird rfl
  have hinsert : table.insert half fast = .ok (table.put half fast) := rfl
  have hmet : ReflTransGen (Points table.get?) root half := .single rfl
  have hunmet : ¬ ReflTransGen (Points table.get?) third half := by
    rw [← htable.acyclic.reaches_eq_true_iff]
    decide
  exact ⟨table, table.put half fast, root, half, third, sqrt, fast, last, htable, hinsert,
    hmet, hunmet, rfl, rfl, (insert_redirects htable hinsert root).1 hmet,
    (insert_redirects htable hinsert half).1 .refl,
    (insert_redirects htable hinsert third).2 hunmet⟩

end QueryPlan.ForwardingTable
