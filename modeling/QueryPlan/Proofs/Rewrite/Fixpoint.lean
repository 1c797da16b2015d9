import QueryPlan.Proofs.Annotations.Hints
import QueryPlan.Proofs.Rewrite.Replacing
import QueryPlan.Proofs.Rewrite.Uniformity

/-!
# Passes stop at a fixpoint

The loop ends with the first pass that answers the plan it was given.  That one pass left a
plan says something about all later ones only if the rules are functions of the node: then
the pass may be repeated later, and takes other handles on the way to the same answer.  So
the plan at which the loop stops is one that every later pass leaves.
-/

namespace QueryPlan

section

variable [ForeignTypes]

open Session

namespace Rewriter

variable {rewriter : Rewriter} {node next : Node} {store middle later : Store Journal}
  {start : Handle}

/-! ## Repeating a pass -/

section Uniform

variable (huniform : ∀ rule ∈ rewriter.rules, rule.Uniform start)
include huniform

theorem le_next_of_rewrite (hstart : start ≤ store.next) {outcome : Outcome}
    (hrun : rewriter.rewrite node store = .ok outcome later) : store.next ≤ later.next := by
  let shift : Shift := ⟨store.next, 0⟩
  have hfirst : start ≤ shift.first := hstart
  -- Even without a gap a pass follows itself, from the handles that it began with.
  have hmeets : shift.MeetsIn store store := ⟨le_refl store.next, rfl⟩
  obtain ⟨hfinal, -⟩ := follows_rewrite huniform hfirst node store store hmeets
  rw [hrun] at hfinal
  exact hfinal.1

theorem le_next_of_iterate (hstart : start ≤ store.next) {count : Nat}
    {outcomes : List Outcome}
    (hrun : rewriter.iterate count node store = .ok outcomes later) :
    store.next ≤ later.next := by
  induction count generalizing node store outcomes with
  | zero =>
      cases hrun
      exact le_refl _
  | succ count ih =>
      obtain ⟨outcome, middle, hfirst, hrun⟩ := Attempt.bind_eq_ok_iff.mp hrun
      obtain ⟨rest, last, hrest, hrun⟩ := Attempt.bind_eq_ok_iff.mp hrun
      cases hrun
      have hmiddle := le_next_of_rewrite huniform hstart hfirst
      exact hmiddle.trans (ih (hstart.trans hmiddle) hrest)

/-- A pass that answered the plan it was given answers it from every later state. -/
theorem rewrite_again (hstart : start ≤ store.next) (hnode : node.Below store.next)
    (hrun : rewriter.rewrite node store = .ok (.unchanged node) later)
    {again : Store Journal} (hagain : store.next ≤ again.next) :
    answer (rewriter.rewrite node again) = .ok (.unchanged node) := by
  let shift : Shift := ⟨store.next, again.next - store.next⟩
  have hfirst : start ≤ shift.first := hstart
  have hmeets : shift.MeetsIn store again :=
    ⟨le_refl store.next, (Nat.add_sub_cancel' hagain).symm⟩
  -- The plan is older than the handles that the pass takes, so it is not moved.
  have hkept : node.moved shift = node := Node.Below.moved_eq hnode
  obtain ⟨-, hanswer⟩ := follows_rewrite huniform hfirst node store again hmeets
  rw [hkept, hrun] at hanswer
  rw [hanswer]
  simp only [answer, Except.map, Outcome.moved, hkept]

end Uniform

/-! ## The last pass -/

section Last

variable {goes : Handle → Session → Prop} {session : Session} {changes : List Outcome}
  (hrebuilds : Rebuilds goes)
  (hrules : ∀ rule ∈ rewriter.rules, Serves goes (fun outcome => [outcome.node]) rule.apply)
include hrebuilds hrules

theorem leads_iterate (count : Nat) (hnode : session.Knows node) :
    Leads (withJournal goes) session (rewriter.iterate count node)
      (AnswersKnown fun outcomes => [reached node outcomes]) := by
  induction count generalizing node session with
  | zero => exact Leads.pure (by simpa [AnswersKnown] using hnode)
  | succ count ih =>
      refine Leads.bind (leads_rewrite hrebuilds hrules hnode) ?_ (fun _ _ _ _ => trivial)
      intro outcome later _ houtcome
      refine Leads.bind (ih (houtcome outcome.node List.mem_cons_self)) ?_
        (fun _ _ _ _ => trivial)
      intro outcomes last _ houtcomes
      exact Leads.pure (by simpa [AnswersKnown] using houtcomes)

variable (hreached : ∀ next later, goes next later → later.Reached)
  (hnext : ∀ next later, goes next later → later.next = next)
include hreached hnext

/-- The plan that the last pass changed nothing of is the one it was given, and is left by
all later passes. -/
theorem Changes.rewrite_again (huniform : ∀ rule ∈ rewriter.rules, rule.Uniform session.next)
    (hnode : session.Knows node) (hgoes : goes store.next session)
    (hchanges : rewriter.Changes node store changes middle)
    (hlast : rewriter.rewrite (reached node changes) middle = .ok (.unchanged next) later)
    {again : Store Journal} (hagain : later.next ≤ again.next) :
    answer (rewriter.rewrite next again) = .ok (.unchanged next) := by
  obtain ⟨before, -, hbefore, hgiven⟩ :=
    leads_iterate hrebuilds hrules changes.length hnode store hgoes
  rw [hchanges.run] at hbefore hgiven
  have hgiven : before.Knows (reached node changes) := hgiven _ List.mem_cons_self
  obtain ⟨after, hextends, hafter, hknown⟩ :=
    leads_rewrite hrebuilds hrules hgiven middle hbefore
  rw [hlast] at hafter hknown
  have hknown : after.Knows next := hknown _ List.mem_cons_self
  have hsame : next = reached node changes := by
    obtain ⟨trace, -, houtcome⟩ := exists_trace_of_rewrite hlast
    have his := node_is_of_outcome_eq_unchanged houtcome.symm
    exact (hreached _ after hafter).sound.coherent next _ hknown (hextends _ hgiven)
      (by simpa [Node.is] using his)
  have hstart : session.next ≤ store.next := le_of_eq (hnext _ _ hgoes)
  have hmiddle : session.next ≤ middle.next :=
    hstart.trans (le_next_of_iterate huniform hstart hchanges.run)
  have hbelow : (reached node changes).Below middle.next := by
    have hbelow := (hreached _ before hbefore).sound.below hgiven
    rwa [hnext _ before hbefore] at hbelow
  have hlater := le_next_of_rewrite huniform hmiddle hlast
  rw [hsame] at hlast ⊢
  exact Rewriter.rewrite_again huniform hmiddle hbelow hlast (hlater.trans hagain)

end Last

end Rewriter

/-- Passes to the fixpoint by rules that are functions of the node, over a known plan, with
any number of passes allowed, of which none counts as one.  If they succeed, they come to a
row of passes all of which changed the plan but for the last.  Either the last changed nothing:
then this is reported and no warning is, from every later state a pass over the result answers
the result, and if more passes are allowed the same happens.  Or it is the last one that is
allowed and changed the plan too: then the warning is reported.  If after passes that all
changed the plan one fails, they fail with its fault exactly if so many are allowed. -/
theorem passes_stop_at_fixpoint {goes : Handle → Session → Prop} {session : Session}
    {rewriter : Rewriter} (hreached : ∀ next later, goes next later → later.Reached)
    (hnext : ∀ next later, goes next later → later.next = next) (hrebuilds : Rebuilds goes)
    (hrules : ∀ rule ∈ rewriter.rules, Serves goes (fun outcome => [outcome.node]) rule.apply)
    (huniform : ∀ rule ∈ rewriter.rules, rule.Uniform session.next)
    {node : Node} (hnode : session.Knows node) {store : Store Journal}
    (hgoes : goes store.next session) :
    (∀ allowed outcome store',
      (rewriter.withMaxPasses allowed).rewriteToFixpoint node store = .ok outcome store' →
        ∃ changes middle last later records,
          rewriter.Changes node store changes middle ∧
          rewriter.iterate (changes.length + 1) node store = .ok (changes ++ [last]) later ∧
          changes.length + 1 ≤ max allowed 1 ∧
          outcome = Rewriter.outcome node last.node ∧
          later.own = store.own ++ records ∧ (∀ record ∈ records, record.IsApplication) ∧
          (last.isChanged = false ∧
              store' = { later with
                own := later.own ++ [.fixpointReached (changes.length + 1)] } ∧
              (∀ again : Store Journal, store'.next ≤ again.next →
                answer (rewriter.rewrite outcome.node again) =
                  .ok (.unchanged outcome.node)) ∧
              (∀ larger, allowed ≤ larger →
                (rewriter.withMaxPasses larger).rewriteToFixpoint node store =
                  .ok outcome store') ∨
            last.isChanged = true ∧ changes.length + 1 = max allowed 1 ∧
              store' = { later with
                own := later.own ++ [.passesExhausted (max allowed 1)] })) ∧
      ∀ changes middle fault, rewriter.Changes node store changes middle →
        answer (rewriter.iterate (changes.length + 1) node store) = .error fault →
          ∀ allowed,
            answer ((rewriter.withMaxPasses allowed).rewriteToFixpoint node store) =
                .error fault ↔
              changes.length + 1 ≤ max allowed 1 := by
  have hlimit : ∀ allowed, (rewriter.withMaxPasses allowed).maxPasses = max allowed 1 :=
    fun _ => rfl
  constructor
  · intro allowed outcome store' hrun
    obtain ⟨changes, middle, last, later, hchanges, hlast, hless, houtcome, hends⟩ :=
      Rewriter.exists_of_rewriteToFixpoint_eq_ok (by rw [hlimit]; omega) hrun
    rw [Rewriter.Changes.withMaxPasses_iff] at hchanges
    rw [hlimit] at hless
    have hiterate := hchanges.iterate_of_eq_ok hlast
    obtain ⟨records, hown, hrecords⟩ :=
      (ReportsApplications.iterate rewriter _ node).exists_records hiterate
    refine ⟨changes, middle, last, later, records, hchanges, hiterate, hless, houtcome, hown,
      hrecords, ?_⟩
    rcases hends with ⟨hkept, rfl⟩ | ⟨hchanged, hfull, rfl⟩
    · cases last with
      | changed next => cases hkept
      | unchanged next =>
          rw [houtcome, Rewriter.node_outcome]
          refine .inl ⟨hkept, rfl, ?_, ?_⟩
          · intro again hagain
            exact Rewriter.Changes.rewrite_again hrebuilds hrules hreached hnext huniform hnode
              hgoes hchanges hlast hagain
          · intro larger hlarger
            have hlarger : changes.length < max larger 1 := by omega
            exact Rewriter.rewriteToFixpoint_of_unchanged
              ((Rewriter.Changes.withMaxPasses_iff larger).mpr hchanges) hlast hlarger
    · exact .inr ⟨hchanged, hfull, rfl⟩
  · intro changes middle fault hchanges hfault allowed
    obtain ⟨later, hlast⟩ := hchanges.exists_of_iterate_eq_error hfault
    have hchanges := (Rewriter.Changes.withMaxPasses_iff allowed).mpr hchanges
    constructor
    · intro hanswer
      by_contra hless
      obtain ⟨outcome, store', hrun⟩ :=
        Rewriter.exists_rewriteToFixpoint_eq_ok hchanges (by rw [hlimit]; omega)
      rw [hrun] at hanswer
      cases hanswer
    · intro hless
      rw [Rewriter.rewriteToFixpoint_of_fault hchanges hlast hless]
      rfl

end

open Session
open scoped Hints

/-- A constant that is replaced in the first pass by one that is replaced in the second.  The
third pass changes nothing, if it is allowed.  If the second replacement is a table, the
second pass fails, if it is allowed. -/
theorem passes_stop_at_fixpoint_chain :
    ∃ (session : Session) (negation last : Node) (rewriter broken : Rewriter)
      (outcome : Outcome) (store' other' : Store Journal),
      session.Reached ∧ session.Knows negation ∧
      (rewriter.withMaxPasses 3).rewriteToFixpoint negation ⟨session.next, []⟩ =
        .ok outcome store' ∧
      (rewriter.withMaxPasses 2).rewriteToFixpoint negation ⟨session.next, []⟩ =
        .ok outcome other' ∧
      outcome.node.children = [last] ∧
      store'.own.getLast? = some (.fixpointReached 3) ∧
      other'.own.getLast? = some (.passesExhausted 2) ∧
      (∀ again : Store Journal, store'.next ≤ again.next →
        answer (rewriter.rewrite outcome.node again) = .ok (.unchanged outcome.node)) ∧
      (∀ larger, 3 ≤ larger →
        (rewriter.withMaxPasses larger).rewriteToFixpoint negation ⟨session.next, []⟩ =
          .ok outcome store') ∧
      ∀ allowed,
        answer ((broken.withMaxPasses allowed).rewriteToFixpoint negation ⟨session.next, []⟩) =
            .error (.wrongCategory .unary .scalar .table) ↔
          2 ≤ max allowed 1 := by
  let first := (Label.constant (.bool false) .boolean).node 0 .empty []
  let second := (Label.constant (.bool true) .boolean).node 1 .empty []
  let third := (Label.constant (.int 0) .integer).node 2 .empty []
  let table := (Label.table "t" none none).node 3 .empty []
  let negation := (Label.unary .not).node 4 .empty [first]
  let middle := (Label.unary .not).node 5 .empty [second]
  let final := (Label.unary .not).node 6 .empty [third]
  have hfirst : Reached ⟨1, [first]⟩ := (Reached.start 0).assemble (by simp) rfl
  have hsecond : Reached ⟨2, [second, first]⟩ := hfirst.assemble (by simp) rfl
  have hthird : Reached ⟨3, [third, second, first]⟩ := hsecond.assemble (by simp) rfl
  have htable : Reached ⟨4, [table, third, second, first]⟩ :=
    hthird.assemble (by simp) rfl
  let session : Session := ⟨5, [negation, table, third, second, first]⟩
  have hreached : session.Reached := htable.assemble (by simp) rfl
  have hknown : ∀ node ∈ session.held, session.Knows node :=
    fun node hnode => knows_of_mem_held hnode
  have hnegation : session.Knows negation := hknown negation (by simp [session])
  let rules (last : Node) : List Rule :=
    [(Replacement.mk second last).rule, (Replacement.mk first second).rule]
  have hstandard : ∀ last ∈ session.held, ∀ rule ∈ rules last, rule.Standard session := by
    intro last hlast rule hrule
    rcases List.mem_pair.mp hrule with rfl | rfl
    · exact .replacement _ (hknown second (by simp [session])) (hknown last hlast)
    · exact .replacement _ (hknown first (by simp [session]))
        (hknown second (by simp [session]))
  let rewriter : Rewriter := .ofRules (rules third)
  let broken : Rewriter := .ofRules (rules table)
  have hrules : ∀ rule ∈ rewriter.rules, rule.Standard session :=
    hstandard third (by simp [session])
  have hbroken : ∀ rule ∈ broken.rules, rule.Standard session :=
    hstandard table (by simp [session])
  let store : Store Journal := ⟨session.next, []⟩
  have hgoes : session.ReachedFrom store.next session := ⟨hreached, rfl, .refl session⟩
  let applied : Record := .ruleApplied "ReplaceNodeRule" .constant .constant
  have hchanges : rewriter.Changes negation store [.changed middle, .changed final]
      ⟨7, [applied, applied]⟩ := ⟨rfl, by simp [Outcome.isChanged]⟩
  have hlast : rewriter.rewrite final ⟨7, [applied, applied]⟩ =
      .ok (.unchanged final) ⟨7, [applied, applied]⟩ := rfl
  have hrun : (rewriter.withMaxPasses 3).rewriteToFixpoint negation store =
      .ok (.changed final) ⟨7, [applied, applied, .fixpointReached 3]⟩ :=
    Rewriter.rewriteToFixpoint_of_unchanged
      ((Rewriter.Changes.withMaxPasses_iff 3).mpr hchanges) hlast (by decide)
  have hexhausted : (rewriter.withMaxPasses 2).rewriteToFixpoint negation store =
      .ok (.changed final) ⟨7, [applied, applied, .passesExhausted 2]⟩ :=
    Rewriter.rewriteToFixpoint_of_changes ((Rewriter.Changes.withMaxPasses_iff 2).mpr hchanges) rfl
  have hfirstChange : broken.Changes negation store [.changed middle] ⟨6, [applied]⟩ :=
    ⟨rfl, by simp [Outcome.isChanged]⟩
  have hfault : answer (broken.iterate 2 negation store) =
      .error (.wrongCategory .unary .scalar .table) := rfl
  obtain ⟨hsucceeds, -⟩ := passes_stop_at_fixpoint (fun _ _ hgoes => hgoes.1)
    (fun _ _ hgoes => hgoes.2.1) (rebuilds_reachedFrom session)
    (fun rule hrule => (hrules rule hrule).serves)
    (fun rule hrule => (hrules rule hrule).uniform hreached.sound) hnegation hgoes
  obtain ⟨-, hfails⟩ := passes_stop_at_fixpoint (fun _ _ hgoes => hgoes.1)
    (fun _ _ hgoes => hgoes.2.1) (rebuilds_reachedFrom session)
    (fun rule hrule => (hbroken rule hrule).serves)
    (fun rule hrule => (hbroken rule hrule).uniform hreached.sound) hnegation hgoes
  obtain ⟨_, _, _, _, _, -, -, -, -, -, -, hstops⟩ := hsucceeds 3 _ _ hrun
  rcases hstops with ⟨-, -, hagain, hlarger⟩ | ⟨-, -, hstore⟩
  · exact ⟨session, negation, third, rewriter, broken, .changed final, _, _, hreached,
      hnegation, hrun, hexhausted, rfl, rfl, rfl, hagain, hlarger,
      hfails [.changed middle] _ _ hfirstChange hfault⟩
  · have hlogged := congrArg (·.own.getLast?) hstore
    simp at hlogged

end QueryPlan
