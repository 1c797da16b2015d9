import QueryPlan.Proofs.Annotations.Hints
import QueryPlan.Proofs.Rewrite.RelabellingRules

/-!
# Substitution and forwarding in any order

A substitution and a forwarding can be applied to a plan in one pass or in two, each
before the other, from the leaves up or from the root down.  All these ways compute
the one relabelling of the plan that does both to every label.  They meet the same
fault first, since the faults are those of the substitution at nodes without
children, which come in the same order however a plan is gone through.
-/

namespace QueryPlan

section

variable [ForeignTypes]

open ForeignTypes (LawfulEqual)

open Session

/-- The operation that substitutes at a node and then forwards what came of it. -/
def substituteThenForward (bindings : Bindings) (table : ForwardingTable) (node : Node) :
    Work Journal Outcome := do
  let first ← bindings.apply node
  table.apply first.node

/-- The ways of applying a substitution and a forwarding to a plan. -/
inductive Interleaving (bindings : Bindings) (table : ForwardingTable) (node : Node) :
    Work Journal Outcome → Prop
  | substitutionBefore :
      Interleaving bindings table node
        ((Rewriter.ofRules [bindings.rule, table.rule]).rewrite node)
  | forwardingBefore :
      Interleaving bindings table node
        ((Rewriter.ofRules [table.rule, bindings.rule]).rewrite node)
  | substitutionPassFirst :
      Interleaving bindings table node (do
        let middle ← (Rewriter.ofRules [bindings.rule]).rewrite node
        (Rewriter.ofRules [table.rule]).rewrite middle.node)
  | forwardingPassFirst :
      Interleaving bindings table node (do
        let middle ← (Rewriter.ofRules [table.rule]).rewrite node
        (Rewriter.ofRules [bindings.rule]).rewrite middle.node)
  | downwards (depth : Nat) :
      node.preorder.length ≤ depth →
      Interleaving bindings table node (do
        let result ← node.transformDown (substituteThenForward bindings table) depth
        return Rewriter.outcome node result)

variable {base session : Session} {bindings : Bindings} {table : ForwardingTable}
  {node : Node}

/-- Two passes of relabelling rules, one after the other. -/
theorem leads_rewrite_in_turn {first second : Rewriter} {relabels others : List Relabelling}
    (hfirst : List.Forall₂ (Rule.Relabels base) first.rules relabels)
    (hsecond : List.Forall₂ (Rule.Relabels base) second.rules others)
    (hnode : session.Knows node) :
    Leads (withJournal base.ReachedFrom) session
      (do
        let middle ← first.rewrite node
        second.rewrite middle.node)
      fun result later => AnswersNormal
        ((Relabelling.compose relabels).apply node.normal >>=
          (Relabelling.compose others).apply)
        (result.map (·.node)) later := by
  refine leads_bind_normal (leads_rewrite_apply hfirst hnode) (fun _ => rfl) (fun _ => rfl)
    (fun _ => rfl) ?_
  exact fun outcome later _ houtcome => leads_rewrite_apply hsecond houtcome

/-- Two passes of relabelling rules, one of which has no faults. -/
theorem leads_rewrite_apply_bind {first second : Rewriter}
    {relabels others : List Relabelling}
    (hfirst : List.Forall₂ (Rule.Relabels base) first.rules relabels)
    (hsecond : List.Forall₂ (Rule.Relabels base) second.rules others)
    (htotal : (Relabelling.compose relabels).Total ∨ (Relabelling.compose others).Total)
    (hnode : session.Knows node) :
    Leads (withJournal base.ReachedFrom) session
      (do
        let middle ← first.rewrite node
        second.rewrite middle.node)
      fun result later => AnswersNormal
        ((Relabelling.compose (relabels ++ others)).apply node.normal)
        (result.map (·.node)) later := by
  rw [Relabelling.compose_append, ← Relabelling.apply_bind htotal]
  exact leads_rewrite_in_turn hfirst hsecond hnode

theorem leads_substituteThenForward (htable : table.Reached) (hnode : session.Knows node) :
    Leads (withJournal base.ReachedFrom) session
      (substituteThenForward bindings table node) fun result later =>
        AnswersNormal
          ((Relabelling.compose [bindings.relabel, table.relabel]).step node.normal)
          (result.map (·.node)) later := by
  rw [Relabelling.step_compose_pair]
  refine leads_bind_normal
    (Leads.ofBuild fun own => (bindings.relabels base).leads_apply hnode)
    (fun _ => rfl) (fun _ => rfl) (fun _ => rfl) ?_
  exact fun first later _ hfirst =>
    Leads.ofBuild fun own => (ForwardingTable.relabels base htable).leads_apply hfirst

/-- Going down comes to the end of the plan before that of the depth. -/
theorem leads_transformDown_both (htable : table.Reached) (hnode : session.Knows node)
    {depth : Nat} (hdepth : node.preorder.length ≤ depth) :
    Leads (withJournal base.ReachedFrom) session
      (node.transformDown (substituteThenForward bindings table) depth)
      (AnswersNormal
        ((Relabelling.compose [bindings.relabel, table.relabel]).apply node.normal)) := by
  apply Leads.goesWith
  rintro store ⟨hreached, -, -⟩
  rw [← (fitting_compose bindings htable).transformDown_eq_apply
    (fun _ _ hfault => (exists_of_compose_eq_error hfault).1)
    (hreached.sound.whole hnode) hdepth]
  exact leads_transformDown_normal
    (fun session node hnode => leads_substituteThenForward htable hnode) depth hnode

theorem Interleaving.leads (htable : table.Reached) (hnode : session.Knows node)
    {way : Work Journal Outcome} (hway : Interleaving bindings table node way) :
    Leads (withJournal base.ReachedFrom) session way fun result later =>
      AnswersNormal
        ((Relabelling.compose [bindings.relabel, table.relabel]).apply node.normal)
        (result.map (·.node)) later := by
  have hbindings := bindings.relabels base
  have hforwarding := ForwardingTable.relabels base htable
  have hsubstitution : List.Forall₂ (Rule.Relabels base)
      (Rewriter.ofRules [bindings.rule]).rules [bindings.relabel] := .cons hbindings .nil
  have hforwardings : List.Forall₂ (Rule.Relabels base)
      (Rewriter.ofRules [table.rule]).rules [table.relabel] := .cons hforwarding .nil
  have htotal : (Relabelling.compose [table.relabel]).Total := by
    rw [Relabelling.compose_singleton]
    exact table.total_relabel
  cases hway with
  | substitutionBefore =>
      exact leads_rewrite_apply (.cons hbindings (.cons hforwarding .nil)) hnode
  | forwardingBefore =>
      rw [← compose_exchange]
      exact leads_rewrite_apply (.cons hforwarding (.cons hbindings .nil)) hnode
  | substitutionPassFirst =>
      exact leads_rewrite_apply_bind hsubstitution hforwardings (.inr htotal) hnode
  | forwardingPassFirst =>
      rw [← compose_exchange]
      exact leads_rewrite_apply_bind hforwardings hsubstitution (.inl htotal) hnode
  | downwards depth hdepth =>
      refine Leads.bind (leads_transformDown_both htable hnode hdepth) ?_ ?_
      · rintro result later - hresult
        apply Leads.pure
        simpa [Except.map] using hresult
      · rintro fault later - hfault
        exact hfault

/-- Relabelling a plan by a substitution and a forwarding needs no depth. -/
theorem apply_ne_depthExhausted (htable : table.Reached) (hnode : node.Whole) :
    (Relabelling.compose [bindings.relabel, table.relabel]).apply node ≠
      .error .depthExhausted := by
  have hkeeps : Step.Keeps (· ≠ .depthExhausted)
      (Relabelling.compose [bindings.relabel, table.relabel]).apply := by
    apply (fitting_compose bindings htable).keeps
    rintro label fault hfault rfl
    obtain ⟨-, name, declared, actual, hbinding⟩ := exists_of_compose_eq_error hfault
    cases hbinding
  intro hexhausted
  have hnone := hkeeps node hnode
  rw [hexhausted] at hnone
  exact hnone rfl

/-- Two ways of applying a substitution and a forwarding to a known plan, from any two
later states, fail with one fault or answer plans that are the same.  Going down from
the root comes to an end by itself, within as many levels as there are nodes. -/
theorem substitution_forwarding_confluent [LawfulEqual] {session : Session}
    (hreached : session.Reached) {node : Node} (hnode : session.Knows node)
    (bindings : Bindings)
    {table : ForwardingTable} (htable : table.Reached) {way other : Work Journal Outcome}
    (hway : Interleaving bindings table node way)
    (hother : Interleaving bindings table node other)
    (store store' : Store Journal) (hstore : session.next ≤ store.next)
    (hstore' : session.next ≤ store'.next) :
    Rewriter.Agree (answer (way store)) (answer (other store')) ∧
      answer (way store) ≠ .error .depthExhausted := by
  have hanswer : ∀ (way : Work Journal Outcome) (store : Store Journal),
      Interleaving bindings table node way → session.next ≤ store.next →
      Rewriter.normalAnswer (answer (way store)) =
        (Relabelling.compose [bindings.relabel, table.relabel]).apply node.normal := by
    intro way store hway hstore
    have hlater : Knows ⟨store.next, session.held⟩ node := hnode
    exact normalAnswer_of_leads hreached hstore (hway.leads htable hlater)
  constructor
  · apply Rewriter.agree_of_normalAnswer_eq
    rw [hanswer way store hway hstore, hanswer other store' hother hstore']
  · intro hexhausted
    have hnormal := hanswer way store hway hstore
    rw [hexhausted] at hnormal
    exact apply_ne_depthExhausted htable (hreached.sound.whole hnode).normal hnormal.symm

end

open Session
open scoped Hints

/-- A call with a bound argument, rewritten in two passes and from the root down. -/
theorem substitution_forwarding_confluent_call :
    ∃ (session : Session) (call : Node) (bindings : Bindings) (table : ForwardingTable)
      (way other : Work Journal Outcome) (sqrt : Signature),
      session.Reached ∧ session.Knows call ∧ table.Reached ∧
      Interleaving bindings table call way ∧ Interleaving bindings table call other ∧
      Rewriter.Agree (answer (way ⟨session.next, []⟩)) (answer (other ⟨9, []⟩)) ∧
      answer (way ⟨session.next, []⟩) ≠ .error .depthExhausted ∧
      (answer (other ⟨9, []⟩)).map (fun outcome => outcome.node.preorder.map Node.label) =
        .ok [.call sqrt .float, .constant (.int 4) .float] := by
  let root : Signature := ⟨none, "root", ["double"]⟩
  let sqrt : Signature := ⟨some "Math", "Sqrt", ["double"]⟩
  let table : ForwardingTable := ⟨[(root, sqrt)]⟩
  have htable : table.Reached := .insert root sqrt .empty rfl
  let bindings := Bindings.empty.bind "x" (.int 4)
  let x := (Label.parameter "x" .float).node 0 .empty []
  let call := (Label.call root .float).node 1 .empty [x]
  let session : Session := ⟨2, [call, x]⟩
  have hx : Reached ⟨1, [x]⟩ := (Reached.start 0).assemble (by simp) rfl
  have hreached : session.Reached := hx.assemble (by simp) rfl
  have hcall : session.Knows call := knows_of_mem_held List.mem_cons_self
  have hway : Interleaving bindings table call _ := .forwardingPassFirst
  have hother : Interleaving bindings table call _ := .downwards 2 (by decide)
  obtain ⟨hagree, hends⟩ := substitution_forwarding_confluent hreached hcall bindings htable
    hway hother ⟨session.next, []⟩ ⟨9, []⟩ (le_refl _) (by decide)
  exact ⟨session, call, bindings, table, _, _, sqrt, hreached, hcall, htable, hway, hother,
    hagree, hends, rfl⟩

end QueryPlan
