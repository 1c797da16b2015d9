import QueryPlan.Proofs.Rewrite.Computing
import QueryPlan.Proofs.Rewrite.ForwardingTable
import QueryPlan.Rewrite.Forwarding
import QueryPlan.Rewrite.Replacement
import QueryPlan.Rewrite.Substitution

/-!
# The steps of the standard rules

Substitution, forwarding and replacement compute steps.  That of a replacement
compares normal forms only: a node that is left because it is the replacement
itself has the normal form of the replacement already.
-/

namespace QueryPlan

variable [ForeignTypes]

open ForeignTypes (LawfulEqual)

open Session

def Bindings.step (bindings : Bindings) : Step := fun node =>
  match node.label with
  | .parameter name type =>
      match bindings.get? name with
      | some value =>
          if type.accepts value.dataType then
            NormalRewriting.rebuild (.constant value.normal type) node.annotations []
          else .error (.incompatibleBinding name type value.dataType)
      | none => .ok node
  | _ => .ok node

def ForwardingTable.step (table : ForwardingTable) : Step := fun node =>
  match node.label with
  | .call signature type =>
      match table.resolve? signature with
      | some target =>
          NormalRewriting.rebuild (.call target type) node.annotations node.children
      | none => .ok node
  | _ => .ok node

open Classical in
noncomputable def Replacement.step (rule : Replacement) : Step := fun node =>
  if node = rule.target.normal then .ok rule.replacement.normal else .ok node

variable {base session : Session} {node : Node}

theorem leads_unchanged_normal (hnode : session.Knows node) :
    Leads base.ReachedFrom session (pure (.unchanged node) : Build Outcome)
      fun result later =>
        AnswersNormal (.ok node.normal) (result.map (·.over node)) later :=
  Leads.pure ⟨by simpa [AnswersKnown, Except.map, Outcome.over] using hnode, rfl⟩

theorem leads_changed_normal {build : Build Node} {expected : Except NodeError Node}
    (hbuild : Leads base.ReachedFrom session build (AnswersNormal expected)) :
    Leads base.ReachedFrom session (do return .changed (← build) : Build Outcome)
      fun result later =>
        AnswersNormal expected (result.map (·.over node)) later := by
  refine Leads.bind hbuild ?_ ?_
  · rintro new later - hnew
    exact Leads.pure hnew
  · rintro fault later - hfault
    exact hfault

theorem Bindings.computes_step (base : Session) (bindings : Bindings) :
    bindings.rule.Computes base bindings.step := by
  intro session node hnode
  cases hlabel : node.label with
  | parameter name type =>
      simp only [rule, Bindings.apply, step, hlabel, Node.normal_label, Label.normal]
      cases hget : bindings.get? name with
      | none => exact leads_unchanged_normal hnode
      | some value =>
          by_cases haccepts : type.accepts value.dataType
          · simp only [haccepts, if_true, Node.normal_annotations]
            have hconstant : Leads base.ReachedFrom session
                (Node.compose (.constant value type) node.annotations [])
                (AnswersNormal (NormalRewriting.rebuild (.constant value.normal type)
                  node.annotations.normal [])) :=
              leads_compose_normal (by simp) rfl hnode
            exact leads_changed_normal hconstant
          · simp only [haccepts]
            exact Leads.throw ⟨trivial, rfl⟩
  | _ =>
      simp only [rule, Bindings.apply, step, hlabel, Node.normal_label, Label.normal]
      exact leads_unchanged_normal hnode

theorem ForwardingTable.computes_step (base : Session) (table : ForwardingTable) :
    table.rule.Computes base table.step := by
  intro session node hnode
  cases hlabel : node.label with
  | call signature type =>
      simp only [rule, ForwardingTable.apply, step, hlabel, Node.normal_label,
        Label.normal]
      cases hresolve : table.resolve? signature with
      | none => exact leads_unchanged_normal hnode
      | some target =>
          simp only [Node.withSignature, hlabel, Node.normal_annotations,
            Node.normal_children]
          refine leads_changed_normal (Leads.goesWith ?_)
          rintro next ⟨hreached, -, -⟩
          have hcategories := (hreached.sound.wellFormed node hnode).categories
          rw [hlabel] at hcategories
          have hchecked : (Label.call target type).checkCategories 0 node.children =
              .ok () := by
            apply (Label.checkCategories_eq_ok_iff _ 0 _).mpr
            simpa [Label.slotCategory] using hcategories
          exact leads_compose_normal (fun child hchild => hnode.child hchild) hchecked hnode
  | _ =>
      simp only [rule, ForwardingTable.apply, step, hlabel, Node.normal_label,
        Label.normal]
      exact leads_unchanged_normal hnode

theorem Replacement.computes_step [LawfulEqual] {replacement : Replacement}
    (htarget : base.Knows replacement.target)
    (hreplacement : base.Knows replacement.replacement) :
    replacement.rule.Computes base replacement.step := by
  intro session node hnode
  apply Leads.goesWith
  rintro next ⟨hreached, -, hbase⟩
  have hsame := hreached.sound.same_iff_normal_eq hnode (hbase _ htarget)
  simp only [rule, Replacement.apply, step]
  by_cases htargets : node.same replacement.target
  · simp only [htargets, Bool.true_and, hsame.mp htargets, if_true]
    by_cases his : node.is replacement.replacement
    · have heq : node = replacement.replacement :=
        hreached.sound.coherent _ _ hnode (hbase _ hreplacement)
          (by simpa [Node.is] using his)
      rw [his, ← heq]
      exact leads_unchanged_normal hnode
    · simp only [his, Bool.not_false, if_true]
      refine Leads.pure ⟨?_, rfl⟩
      simpa [AnswersKnown, Except.map, Outcome.over] using hbase _ hreplacement
  · have hne : node.normal ≠ replacement.target.normal :=
      fun heq => htargets (hsame.mpr heq)
    simp only [htargets, hne, Bool.false_and, if_false]
    exact leads_unchanged_normal hnode

/-- The rules of the library: any substitution, any forwarding, and replacements
of a known node by a known node. -/
inductive Rule.Standard (base : Session) : Rule → Prop
  | substitution (bindings : Bindings) : Standard base bindings.rule
  | forwarding (table : ForwardingTable) : table.Reached → Standard base table.rule
  | replacement (replacement : Replacement) :
      base.Knows replacement.target → base.Knows replacement.replacement →
      Standard base replacement.rule

theorem Rule.Standard.exists_computes [LawfulEqual] {rule : Rule} (hrule : rule.Standard base) :
    ∃ step, rule.Computes base step := by
  cases hrule with
  | substitution bindings => exact ⟨_, bindings.computes_step base⟩
  | forwarding table _ => exact ⟨_, table.computes_step base⟩
  | replacement replacement htarget hreplacement =>
      exact ⟨_, Replacement.computes_step htarget hreplacement⟩

end QueryPlan
