import QueryPlan.Proofs.Rewrite.Trace

/-!
# The loop of passes

Passes to the fixpoint are passes one after the other that stop early.  How they end is
settled by the passes in a row that change the plan, of which there are as many as are
allowed or fewer.  If there are as many, the passes are exhausted.  If there are fewer, the
pass after them changes nothing, and the fixpoint is reached, or it fails.

None of this depends on what the rules do.
-/

namespace QueryPlan

variable [ForeignTypes]

namespace Rewriter

/-- A number of passes, each over the plan that the one before answered, and the answers of
all. -/
def iterate (rewriter : Rewriter) : Nat → Node → Work Journal (List Outcome)
  | 0, _ => pure []
  | count + 1, node => do
      let outcome ← rewriter.rewrite node
      return outcome :: (← rewriter.iterate count outcome.node)

/-- The plan to which a row of passes came that began with a given one. -/
def reached (node : Node) (outcomes : List Outcome) : Node :=
  (outcomes.map Outcome.node).getLastD node

/-- A row of passes that all change the plan, and the state that they leave. -/
structure Changes (rewriter : Rewriter) (node : Node) (store : Store Journal)
    (changes : List Outcome) (middle : Store Journal) : Prop where
  run : rewriter.iterate changes.length node store = .ok changes middle
  changed : ∀ change ∈ changes, change.isChanged = true

variable {rewriter : Rewriter} {node next : Node} {store middle later : Store Journal}
  {changes : List Outcome} {last : Outcome}

@[simp] theorem reached_nil (node : Node) : reached node [] = node := rfl

@[simp] theorem reached_cons (node : Node) (outcome : Outcome) (outcomes : List Outcome) :
    reached node (outcome :: outcomes) = reached outcome.node outcomes := by
  simp only [reached, List.map_cons, List.getLastD_cons]

@[simp] theorem reached_concat (node : Node) (outcomes : List Outcome) (last : Outcome) :
    reached node (outcomes ++ [last]) = last.node := by
  simp [reached]

theorem length_of_iterate {count : Nat} {outcomes : List Outcome}
    (hrun : rewriter.iterate count node store = .ok outcomes later) :
    outcomes.length = count := by
  induction count generalizing node store outcomes with
  | zero =>
      cases hrun
      rfl
  | succ count ih =>
      obtain ⟨outcome, middle, -, hrun⟩ := Attempt.bind_eq_ok_iff.mp hrun
      obtain ⟨rest, last, hrest, hrun⟩ := Attempt.bind_eq_ok_iff.mp hrun
      cases hrun
      rw [List.length_cons, ih hrest]

theorem iterate_add (rewriter : Rewriter) (count more : Nat) (node : Node) :
    rewriter.iterate (count + more) node = (do
      let outcomes ← rewriter.iterate count node
      let rest ← rewriter.iterate more (reached node outcomes)
      return outcomes ++ rest) := by
  induction count generalizing node with
  | zero => simp [iterate]
  | succ count ih =>
      rw [Nat.add_right_comm, iterate, iterate]
      simp only [bind_assoc, pure_bind, reached_cons, List.cons_append]
      refine bind_congr fun outcome => ?_
      simp only [ih, bind_assoc, pure_bind]

theorem iterate_withMaxPasses (rewriter : Rewriter) (passes count : Nat) (node : Node) :
    (rewriter.withMaxPasses passes).iterate count node = rewriter.iterate count node := by
  induction count generalizing node with
  | zero => rfl
  | succ count ih =>
      simp only [iterate, ih]
      rfl

namespace Changes

theorem iterate_succ_eq (hchanges : rewriter.Changes node store changes middle) :
    rewriter.iterate (changes.length + 1) node store = (do
      let last ← rewriter.rewrite (reached node changes)
      return changes ++ [last]) middle := by
  rw [iterate_add, Attempt.bind_of_eq_ok hchanges.run]
  simp [iterate]

theorem iterate_of_eq_ok (hchanges : rewriter.Changes node store changes middle)
    (hlast : rewriter.rewrite (reached node changes) middle = .ok last later) :
    rewriter.iterate (changes.length + 1) node store = .ok (changes ++ [last]) later := by
  rw [hchanges.iterate_succ_eq, Attempt.bind_of_eq_ok hlast]
  rfl

theorem exists_of_iterate_eq_error {fault : NodeError}
    (hchanges : rewriter.Changes node store changes middle)
    (hfault : answer (rewriter.iterate (changes.length + 1) node store) = .error fault) :
    ∃ later, rewriter.rewrite (reached node changes) middle = .error fault later := by
  rw [hchanges.iterate_succ_eq] at hfault
  cases hlast : rewriter.rewrite (reached node changes) middle with
  | ok last later =>
      rw [Attempt.bind_of_eq_ok hlast] at hfault
      cases hfault
  | error fault' later =>
      rw [Attempt.bind_of_eq_error hlast] at hfault
      cases hfault
      exact ⟨later, rfl⟩

theorem nil (rewriter : Rewriter) (node : Node) (store : Store Journal) :
    rewriter.Changes node store [] store :=
  ⟨rfl, by simp⟩

theorem concat (hchanges : rewriter.Changes node store changes middle)
    (hlast : rewriter.rewrite (reached node changes) middle = .ok (.changed next) later) :
    rewriter.Changes node store (changes ++ [.changed next]) later := by
  constructor
  · rw [List.length_append]
    exact hchanges.iterate_of_eq_ok hlast
  · intro change hchange
    rcases List.mem_append.mp hchange with hchange | hchange
    · exact hchanges.changed change hchange
    · rw [List.mem_singleton.mp hchange]
      rfl

theorem of_append {more : List Outcome}
    (hchanges : rewriter.Changes node store (changes ++ more) later) :
    ∃ middle, rewriter.Changes node store changes middle := by
  obtain ⟨hrun, hchanged⟩ := hchanges
  rw [List.length_append, iterate_add] at hrun
  obtain ⟨outcomes, middle, houtcomes, hrun⟩ := Attempt.bind_eq_ok_iff.mp hrun
  obtain ⟨rest, last, -, hrun⟩ := Attempt.bind_eq_ok_iff.mp hrun
  have happend : outcomes ++ rest = changes ++ more := (EStateM.Result.ok.inj hrun).1
  obtain ⟨rfl, -⟩ := List.append_inj happend (length_of_iterate houtcomes)
  exact ⟨middle, houtcomes, fun change hchange =>
    hchanged change (List.mem_append_left more hchange)⟩

/-- The passes in a row that change the plan are passes of the loop. -/
theorem passes_eq (hchanges : rewriter.Changes node store changes middle) (more pass : Nat) :
    rewriter.passes (changes.length + more) pass node store =
      rewriter.passes more (pass + changes.length) (reached node changes) middle := by
  induction changes generalizing node store pass with
  | nil =>
      obtain ⟨hrun, -⟩ := hchanges
      cases hrun
      simp
  | cons change rest ih =>
      obtain ⟨hrun, hchanged⟩ := hchanges
      obtain ⟨hchange, hrest⟩ := List.forall_mem_cons.mp hchanged
      obtain ⟨outcome, next, hfirst, hrun⟩ := Attempt.bind_eq_ok_iff.mp hrun
      obtain ⟨outcomes, last, houtcomes, hrun⟩ := Attempt.bind_eq_ok_iff.mp hrun
      cases hrun
      have hlength : (change :: rest).length + more = rest.length + more + 1 := by
        rw [List.length_cons]
        omega
      rw [hlength, passes, Attempt.bind_of_eq_ok hfirst]
      cases change with
      | unchanged kept => cases hchange
      | changed new =>
          have hlater := ih ⟨houtcomes, hrest⟩ (pass + 1)
          have hpass : pass + 1 + rest.length = pass + (rest.length + 1) := by omega
          rw [hpass] at hlater
          rw [reached_cons, List.length_cons]
          exact hlater

theorem withMaxPasses_iff (passes : Nat) :
    (rewriter.withMaxPasses passes).Changes node store changes middle ↔
      rewriter.Changes node store changes middle := by
  constructor
  · rintro ⟨hrun, hchanged⟩
    rw [iterate_withMaxPasses] at hrun
    exact ⟨hrun, hchanged⟩
  · rintro ⟨hrun, hchanged⟩
    rw [← iterate_withMaxPasses rewriter passes] at hrun
    exact ⟨hrun, hchanged⟩

end Changes

/-- As many passes in a row as change the plan, up to a bound. -/
theorem exists_changes (rewriter : Rewriter) (node : Node) (store : Store Journal)
    (bound : Nat) :
    ∃ changes middle, rewriter.Changes node store changes middle ∧ changes.length ≤ bound ∧
      (changes.length < bound → ∀ next later,
        rewriter.rewrite (reached node changes) middle ≠ .ok (.changed next) later) := by
  induction bound with
  | zero => exact ⟨[], store, .nil rewriter node store, le_refl _, by simp⟩
  | succ bound ih =>
      obtain ⟨changes, middle, hchanges, hlength, hstops⟩ := ih
      by_cases hlast : ∃ next later,
          rewriter.rewrite (reached node changes) middle = .ok (.changed next) later
      · obtain ⟨next, later, hlast⟩ := hlast
        have hfull : ¬ changes.length < bound := fun hless => hstops hless next later hlast
        refine ⟨changes ++ [.changed next], later, hchanges.concat hlast, ?_, ?_⟩
        · rw [List.length_append, List.length_singleton]
          omega
        · rw [List.length_append, List.length_singleton]
          omega
      · refine ⟨changes, middle, hchanges, by omega, ?_⟩
        exact fun _ next later hrun => hlast ⟨next, later, hrun⟩

/-! ## How the loop ends -/

section Ends

variable (hchanges : rewriter.Changes node store changes middle)
include hchanges

theorem rewriteToFixpoint_of_unchanged
    (hlast : rewriter.rewrite (reached node changes) middle = .ok (.unchanged next) later)
    (hpasses : changes.length < rewriter.maxPasses) :
    rewriter.rewriteToFixpoint node store = .ok (outcome node next)
      { later with own := later.own ++ [.fixpointReached (changes.length + 1)] } := by
  obtain ⟨more, hmore⟩ : ∃ more, rewriter.maxPasses = changes.length + (more + 1) :=
    ⟨rewriter.maxPasses - changes.length - 1, by omega⟩
  have hpassed : rewriter.passes rewriter.maxPasses 1 node store = .ok (next, true)
      { later with own := later.own ++ [.fixpointReached (changes.length + 1)] } := by
    rw [hmore, hchanges.passes_eq, passes, Attempt.bind_of_eq_ok hlast,
      Nat.add_comm 1 changes.length]
    rfl
  rw [rewriteToFixpoint, Attempt.bind_of_eq_ok hpassed]
  rfl

theorem rewriteToFixpoint_of_fault {fault : NodeError}
    (hlast : rewriter.rewrite (reached node changes) middle = .error fault later)
    (hpasses : changes.length < rewriter.maxPasses) :
    rewriter.rewriteToFixpoint node store = .error fault later := by
  obtain ⟨more, hmore⟩ : ∃ more, rewriter.maxPasses = changes.length + (more + 1) :=
    ⟨rewriter.maxPasses - changes.length - 1, by omega⟩
  have hpassed : rewriter.passes rewriter.maxPasses 1 node store = .error fault later := by
    rw [hmore, hchanges.passes_eq, passes, Attempt.bind_of_eq_error hlast]
  rw [rewriteToFixpoint, Attempt.bind_of_eq_error hpassed]

theorem rewriteToFixpoint_of_changes (hpasses : changes.length = rewriter.maxPasses) :
    rewriter.rewriteToFixpoint node store = .ok (outcome node (reached node changes))
      { middle with own := middle.own ++ [.passesExhausted rewriter.maxPasses] } := by
  have hpassed : rewriter.passes rewriter.maxPasses 1 node store =
      .ok (reached node changes, false) middle := by
    rw [← hpasses, ← Nat.add_zero changes.length, hchanges.passes_eq, passes]
    rfl
  rw [rewriteToFixpoint, Attempt.bind_of_eq_ok hpassed]
  rfl

theorem exists_rewriteToFixpoint_eq_ok (hpasses : rewriter.maxPasses ≤ changes.length) :
    ∃ outcome store', rewriter.rewriteToFixpoint node store = .ok outcome store' := by
  -- The first passes of the row, as many as are allowed, are exhausted.
  rw [← List.take_append_drop rewriter.maxPasses changes] at hchanges
  obtain ⟨earlier, hearlier⟩ := hchanges.of_append
  have hlength : (changes.take rewriter.maxPasses).length = rewriter.maxPasses :=
    List.length_take_of_le hpasses
  exact ⟨_, _, rewriteToFixpoint_of_changes hearlier hlength⟩

end Ends

/-- What passes that succeeded did: a row of passes all of which changed the plan but for the
last, which changed nothing or was the last that was allowed. -/
theorem exists_of_rewriteToFixpoint_eq_ok {outcome : Outcome} {store' : Store Journal}
    (hpositive : 0 < rewriter.maxPasses)
    (hrun : rewriter.rewriteToFixpoint node store = .ok outcome store') :
    ∃ changes middle last later, rewriter.Changes node store changes middle ∧
      rewriter.rewrite (reached node changes) middle = .ok last later ∧
      changes.length < rewriter.maxPasses ∧ outcome = Rewriter.outcome node last.node ∧
      (last.isChanged = false ∧ store' = { later with
          own := later.own ++ [.fixpointReached (changes.length + 1)] } ∨
        last.isChanged = true ∧ changes.length + 1 = rewriter.maxPasses ∧
          store' = { later with
            own := later.own ++ [.passesExhausted rewriter.maxPasses] }) := by
  obtain ⟨changes, middle, hchanges, hlength, hstops⟩ :=
    rewriter.exists_changes node store (rewriter.maxPasses - 1)
  have hless : changes.length < rewriter.maxPasses := by omega
  cases hlast : rewriter.rewrite (reached node changes) middle with
  | error fault later =>
      rw [rewriteToFixpoint_of_fault hchanges hlast hless] at hrun
      cases hrun
  | ok last later =>
      refine ⟨changes, middle, last, later, hchanges, hlast, hless, ?_⟩
      cases last with
      | unchanged next =>
          rw [rewriteToFixpoint_of_unchanged hchanges hlast hless] at hrun
          cases hrun
          exact ⟨rfl, .inl ⟨rfl, rfl⟩⟩
      | changed next =>
          have hfull : changes.length + 1 = rewriter.maxPasses := by
            by_contra hne
            exact hstops (by omega) next later hlast
          have hlength : (changes ++ [Outcome.changed next]).length = rewriter.maxPasses := by
            rw [List.length_append]
            exact hfull
          rw [rewriteToFixpoint_of_changes (hchanges.concat hlast) hlength,
            reached_concat] at hrun
          cases hrun
          exact ⟨rfl, .inr ⟨rfl, hfull, rfl⟩⟩

end Rewriter

end QueryPlan
