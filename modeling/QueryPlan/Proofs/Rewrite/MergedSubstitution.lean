import QueryPlan.Proofs.Annotations.Hints
import QueryPlan.Proofs.Rewrite.Interleaving

/-!
# Substitutions compose

Two substitutions can be made in two passes, in one pass by two rules, or by one rule with
the bindings of both.  A name that both of them bind gets the value of the first, which has
made a constant of the parameter before the second one comes to it.

The ways meet faults in different orders, since the faults of a first pass come before all
those of a second one.  They succeed for the same plans and then make the same plan.
-/

namespace QueryPlan

/-- The values of the first for the names that it binds, and those of the second for all
other names. -/
def Bindings.Merges (merged first second : Bindings) : Prop :=
  ∀ name, merged.get? name = (first.get? name).or (second.get? name)

theorem Bindings.merges_append (first second : Bindings) :
    Merges ⟨first.entries ++ second.entries⟩ first second := by
  intro name
  unfold get?
  rw [List.find?_append, Option.map_or]

/-- One label after the other, what the first substitution leaves is what the second one
finds. -/
theorem Bindings.Merges.relabel_eq {merged first second : Bindings}
    (hmerged : merged.Merges first second) :
    merged.relabel = Relabelling.compose [first.relabel, second.relabel] := by
  funext label
  rw [Relabelling.compose_pair]
  cases label with
  | parameter name type =>
      simp only [relabel, hmerged name]
      cases hfirst : first.get? name with
      | none => rfl
      | some value =>
          by_cases haccepts : type.accepts value.dataType
          · simp only [haccepts, if_true, Option.some_or]
            rfl
          · simp only [haccepts, Option.some_or]
            rfl
  | _ => rfl

section

variable [ForeignTypes]

open ForeignTypes (LawfulEqual)

open Session

/-- The ways of making two substitutions in a plan. -/
inductive SubstitutingBoth (first second : Bindings) (node : Node) :
    Work Journal Outcome → Prop
  | inTurn :
      SubstitutingBoth first second node (do
        let middle ← (Rewriter.ofRules [first.rule]).rewrite node
        (Rewriter.ofRules [second.rule]).rewrite middle.node)
  | listed :
      SubstitutingBoth first second node
        ((Rewriter.ofRules [first.rule, second.rule]).rewrite node)
  | merged (merged : Bindings) :
      merged.Merges first second →
      SubstitutingBoth first second node ((Rewriter.ofRules [merged.rule]).rewrite node)

variable {session : Session} {first second : Bindings} {node : Node}

namespace Rewriter

/-- Two runs both fail, or answer plans that are the same.  The plans are the same even if
no handle is looked at. -/
def AgreeUpToFaults : Except NodeError Outcome → Except NodeError Outcome → Prop
  | .ok outcome, .ok other =>
      outcome.node.same other.node = true ∧ outcome.node.normal = other.node.normal
  | .error _, .error _ => True
  | _, _ => False

theorem agreeUpToFaults_of_normalAnswer [LawfulEqual]
    {result other : Except NodeError Outcome}
    (hnormal : ∀ plan, normalAnswer result = .ok plan ↔ normalAnswer other = .ok plan) :
    AgreeUpToFaults result other := by
  cases result with
  | error fault =>
      cases other with
      | error fault' => trivial
      | ok outcome' => cases (hnormal outcome'.node.normal).mpr rfl
  | ok outcome =>
      have hanswer := (hnormal outcome.node.normal).mp rfl
      cases other with
      | error fault => cases hanswer
      | ok outcome' =>
          have hnodes := (Except.ok.inj hanswer).symm
          exact ⟨outcome.node.lawful.same_of_normal_eq hnodes, hnodes⟩

end Rewriter

/-- Every way succeeds where one relabelling by both substitutions does, with its plan. -/
theorem SubstitutingBoth.normalAnswer_eq_ok_iff (hreached : session.Reached)
    (hnode : session.Knows node) {way : Work Journal Outcome}
    (hway : SubstitutingBoth first second node way) {store : Store Journal}
    (hstore : session.next ≤ store.next) (plan : Node) :
    Rewriter.normalAnswer (answer (way store)) = .ok plan ↔
      (Relabelling.compose [first.relabel, second.relabel]).apply node.normal =
        .ok plan := by
  have hlater : Knows ⟨store.next, session.held⟩ node := hnode
  have hfirst := first.relabels session
  have hsecond := second.relabels session
  cases hway with
  | inTurn =>
      have hfirsts : List.Forall₂ (Rule.Relabels session)
          (Rewriter.ofRules [first.rule]).rules [first.relabel] := .cons hfirst .nil
      have hseconds : List.Forall₂ (Rule.Relabels session)
          (Rewriter.ofRules [second.rule]).rules [second.relabel] := .cons hsecond .nil
      rw [normalAnswer_of_leads hreached hstore
          (leads_rewrite_in_turn hfirsts hseconds hlater), Relabelling.compose_singleton,
        Relabelling.compose_singleton]
      rw [funext (Relabelling.compose_pair first.relabel second.relabel)]
      exact Relabelling.apply_bind_eq_ok_iff
  | listed =>
      rw [normalAnswer_of_leads hreached hstore
        (leads_rewrite_apply (.cons hfirst (.cons hsecond .nil)) hlater)]
  | merged merged hmerged =>
      rw [normalAnswer_of_leads hreached hstore
        (leads_rewrite_apply (.cons (merged.relabels session) .nil) hlater),
        Relabelling.compose_singleton, hmerged.relabel_eq]

/-- Two substitutions in a known plan, made in two of the ways from any two later states,
either fail in both or make plans that are the same. -/
theorem substitutions_compose [LawfulEqual] {session : Session}
    (hreached : session.Reached) {node : Node} (hnode : session.Knows node)
    {first second : Bindings} {way other : Work Journal Outcome}
    (hway : SubstitutingBoth first second node way)
    (hother : SubstitutingBoth first second node other) (store store' : Store Journal)
    (hstore : session.next ≤ store.next) (hstore' : session.next ≤ store'.next) :
    Rewriter.AgreeUpToFaults (answer (way store)) (answer (other store')) := by
  apply Rewriter.agreeUpToFaults_of_normalAnswer
  intro plan
  rw [hway.normalAnswer_eq_ok_iff hreached hnode hstore,
    hother.normalAnswer_eq_ok_iff hreached hnode hstore']

end

open Session
open scoped Hints

/-- Two bindings of one name, of which the second alone would be a fault, made in two passes
and by one rule. -/
theorem substitutions_compose_overlapping :
    ∃ (session : Session) (call : Node) (first second : Bindings) (pick : Signature)
      (way other : Work Journal Outcome),
      session.Reached ∧ session.Knows call ∧
      SubstitutingBoth first second call way ∧ SubstitutingBoth first second call other ∧
      first.get? "x" = some (.int 4) ∧ second.get? "x" = some (.string "four") ∧
      Rewriter.AgreeUpToFaults (answer (way ⟨session.next, []⟩)) (answer (other ⟨9, []⟩)) ∧
      (answer (way ⟨session.next, []⟩)).map
          (fun outcome => outcome.node.preorder.map Node.label) =
        .ok [.call pick .float, .constant (.int 4) .float, .constant (.bool true) .boolean] := by
  let pick : Signature := ⟨none, "pick", ["double", "bool"]⟩
  let first := Bindings.empty.bind "x" (.int 4)
  let second := (Bindings.empty.bind "x" (.string "four")).bind "y" (.bool true)
  let x := (Label.parameter "x" .float).node 0 .empty []
  let y := (Label.parameter "y" .boolean).node 1 .empty []
  let call := (Label.call pick .float).node 2 .empty [x, y]
  let session : Session := ⟨3, [call, y, x]⟩
  have hx : Reached ⟨1, [x]⟩ := (Reached.start 0).assemble (by simp) rfl
  have hy : Reached ⟨2, [y, x]⟩ := hx.assemble (by simp) rfl
  have hreached : session.Reached := hy.assemble (by simp) rfl
  have hcall : session.Knows call := knows_of_mem_held List.mem_cons_self
  have hway : SubstitutingBoth first second call _ := .inTurn
  have hother : SubstitutingBoth first second call _ :=
    .merged _ (Bindings.merges_append first second)
  have hagree := substitutions_compose hreached hcall hway hother ⟨session.next, []⟩ ⟨9, []⟩
    (le_refl _) (by decide)
  exact ⟨session, call, first, second, pick, _, _, hreached, hcall, hway, hother, rfl, rfl,
    hagree, rfl⟩

end QueryPlan
