import QueryPlan.Proofs.Rewrite.ForwardingChains
import QueryPlan.Proofs.Rewrite.Relabelling

/-!
# Substitution and forwarding as relabelling

A substitution turns labels of parameters into labels of constants and a forwarding
turns labels of calls into labels of calls, in both cases with the same type and the
same number of children.  So the two do not touch each other's labels, and what one
of them made is left alone by both, since no entry leads on from the end of a chain.
-/

namespace QueryPlan

def Bindings.relabel (bindings : Bindings) : Relabelling
  | .parameter name type =>
      match bindings.get? name with
      | some value =>
          if type.accepts value.dataType then .ok (.constant value.normal type)
          else .error (.incompatibleBinding name type value.dataType)
      | none => .ok (.parameter name type)
  | label => .ok label

def ForwardingTable.relabel (table : ForwardingTable) : Relabelling
  | .call signature type => .ok (.call ((table.resolve? signature).getD signature) type)
  | label => .ok label

/-- A substitution keeps a label, which is then no parameter that it binds, or makes a
constant of a parameter. -/
theorem Bindings.kept_or_bound {bindings : Bindings} {label new : Label}
    (hnew : bindings.relabel label = .ok new) :
    (new = label ∧
      ∀ name type, label = .parameter name type → bindings.get? name = none) ∨
    ∃ (name : String) (type : DataType) (value : Literal),
      label = .parameter name type ∧ new = .constant value.normal type := by
  cases label with
  | parameter name type =>
      simp only [relabel] at hnew
      cases hget : bindings.get? name with
      | none =>
          rw [hget] at hnew
          refine .inl ⟨(Except.ok.inj hnew).symm, ?_⟩
          rintro other _ ⟨⟩
          exact hget
      | some value =>
          simp only [hget] at hnew
          split at hnew
          · exact .inr ⟨name, type, value, rfl, (Except.ok.inj hnew).symm⟩
          · cases hnew
  | _ => exact .inl ⟨(Except.ok.inj hnew).symm, by simp⟩

/-- A forwarding keeps a label, which then calls no function with an entry, or makes a
call of the function at the end of a chain. -/
theorem ForwardingTable.kept_or_forwarded {table : ForwardingTable} {label new : Label}
    (hnew : table.relabel label = .ok new) :
    (new = label ∧
      ∀ signature type, label = .call signature type → table.resolve? signature = none) ∨
    ∃ signature type target, label = .call signature type ∧
      table.resolve? signature = some target ∧ new = .call target type := by
  cases label with
  | call signature type =>
      obtain rfl := Except.ok.inj hnew
      cases hresolve : table.resolve? signature with
      | none =>
          refine .inl ⟨rfl, ?_⟩
          rintro other _ ⟨⟩
          exact hresolve
      | some target => exact .inr ⟨signature, type, target, rfl, hresolve, rfl⟩
  | _ => exact .inl ⟨(Except.ok.inj hnew).symm, by simp⟩

theorem ForwardingTable.total_relabel (table : ForwardingTable) : table.relabel.Total := by
  intro label
  cases label <;> exact ⟨_, rfl⟩

/-- What is wrong is a binding, at a parameter, which has no children. -/
theorem exists_of_compose_eq_error {bindings : Bindings} {table : ForwardingTable}
    {label : Label} {fault : NodeError}
    (hfault : Relabelling.compose [bindings.relabel, table.relabel] label = .error fault) :
    label.arity = 0 ∧
      ∃ name declared actual, fault = .incompatibleBinding name declared actual := by
  rw [Relabelling.compose_pair] at hfault
  cases label with
  | parameter name type =>
      simp only [Bindings.relabel] at hfault
      split at hfault
      · split at hfault
        · cases hfault
        · exact ⟨rfl, _, _, _, (Except.error.inj hfault).symm⟩
      · cases hfault
  | _ => cases hfault

/-- Neither of the two makes a label that the other one changes. -/
theorem compose_exchange (bindings : Bindings) (table : ForwardingTable) :
    Relabelling.compose [table.relabel, bindings.relabel] =
      Relabelling.compose [bindings.relabel, table.relabel] := by
  funext label
  rw [Relabelling.compose_pair, Relabelling.compose_pair]
  cases label with
  | parameter name type =>
      simp only [ForwardingTable.relabel, Bindings.relabel, bind, Except.bind]
      cases hget : bindings.get? name with
      | none => rfl
      | some value => by_cases haccepts : type.accepts value.dataType <;> simp [haccepts]
  | _ => rfl

variable [ForeignTypes]

open Session

theorem Bindings.fitting_relabel (bindings : Bindings) : bindings.relabel.Fitting := by
  intro label new hnew
  rcases kept_or_bound hnew with ⟨rfl, -⟩ | ⟨name, type, value, rfl, rfl⟩
  · exact Label.fits_self new
  · constructor <;> intros <;> rfl

theorem ForwardingTable.fitting_relabel {table : ForwardingTable}
    (htable : table.Reached) : table.relabel.Fitting := by
  intro label new hnew
  rcases kept_or_forwarded hnew with
    ⟨rfl, -⟩ | ⟨signature, type, target, rfl, hresolve, rfl⟩
  · exact Label.fits_self new
  · have harity := htable.arity_resolve? hresolve
    constructor <;> intros <;> first | rfl | exact harity

/-! ## What the rules compute -/

section Computes

variable {base : Session}

/-- What a rule computes is told by the normal forms of whole plans. -/
theorem Rule.Computes.congr {rule : Rule} {step other : Step}
    (hcomputes : rule.Computes base step)
    (hsteps : ∀ node : Node, node.Whole → other node.normal = step node.normal) :
    rule.Computes base other := by
  intro session node hnode
  apply Leads.goesWith
  rintro next ⟨hreached, -, -⟩
  rw [hsteps node (hreached.sound.whole hnode)]
  exact hcomputes session node hnode

/-- A label that is kept keeps its node. -/
theorem Relabelling.step_eq_self {relabel : Relabelling} {node : Node}
    (hnode : node.Whole) (hkept : relabel node.normal.label = .ok node.normal.label) :
    relabel.step node.normal = .ok node.normal := by
  have hself := (Node.whole_iff.mp hnode).1.normal_eq
  rw [step, hkept, Node.normal_label, Node.normal_annotations, Node.normal_children]
  exact congrArg Except.ok hself.symm

/-- A label that fits passes the checks of rebuilding. -/
theorem Relabelling.Fitting.step_eq_rebuild {relabel : Relabelling}
    (hrelabel : relabel.Fitting) {node : Node} (hnode : node.Whole) {new : Label}
    (hnew : relabel node.label = .ok new) :
    relabel.step node = NormalRewriting.rebuild new node.annotations node.children := by
  have hchecked := (Node.whole_iff.mp hnode).1.checkParts
  rw [step, hnew, rebuild_eq_ok ((hrelabel _ _ hnew).checkParts hchecked)]
  rfl

theorem Bindings.step_relabel (bindings : Bindings) {node : Node} (hnode : node.Whole) :
    bindings.relabel.step node.normal = bindings.step node.normal := by
  unfold Bindings.step
  cases hlabel : node.normal.label with
  | parameter name type =>
      cases hget : bindings.get? name with
      | none =>
          simp only [hget]
          apply Relabelling.step_eq_self hnode
          simp only [hlabel, relabel, hget]
      | some value =>
          by_cases haccepts : type.accepts value.dataType
          · have hnew : bindings.relabel node.normal.label =
                .ok (.constant value.normal type) := by
              simp only [hlabel, relabel, hget, haccepts, if_true]
            have hchildren : node.normal.children = [] := by
              apply List.length_eq_zero_iff.mp
              rw [(Node.whole_iff.mp hnode).1.normal.arity, hlabel]
              rfl
            simp only [hget, haccepts, if_true]
            rw [bindings.fitting_relabel.step_eq_rebuild hnode.normal hnew, hchildren]
          · simp only [hget, haccepts, Relabelling.step, hlabel, relabel]
            rfl
  | _ =>
      apply Relabelling.step_eq_self hnode
      rw [hlabel]
      rfl

theorem ForwardingTable.step_relabel {table : ForwardingTable} (htable : table.Reached)
    {node : Node} (hnode : node.Whole) :
    table.relabel.step node.normal = table.step node.normal := by
  unfold ForwardingTable.step
  cases hlabel : node.normal.label with
  | call signature type =>
      cases hresolve : table.resolve? signature with
      | none =>
          simp only [hresolve]
          apply Relabelling.step_eq_self hnode
          rw [hlabel, relabel, hresolve]
          rfl
      | some target =>
          simp only [hresolve]
          apply (fitting_relabel htable).step_eq_rebuild hnode.normal
          rw [hlabel, relabel, hresolve]
          rfl
  | _ =>
      apply Relabelling.step_eq_self hnode
      rw [hlabel]
      rfl

/-- A rule that changes labels only, and as they fit.  A node that it leaves is its
answer. -/
structure Rule.Relabels (base : Session) (rule : Rule) (relabel : Relabelling) : Prop where
  computes : rule.Computes base relabel.step
  fitting : relabel.Fitting
  leaves : ∀ node, Outcome.node <$> rule.apply node = Outcome.over node <$> rule.apply node

theorem Bindings.relabels (base : Session) (bindings : Bindings) :
    bindings.rule.Relabels base bindings.relabel where
  computes := (bindings.computes_step base).congr fun _ => bindings.step_relabel
  fitting := bindings.fitting_relabel
  leaves node := by
    simp only [rule, apply]
    split
    · split
      · split
        · simp [Outcome.node, Outcome.over]
        · rfl
      · simp [Outcome.node, Outcome.over]
    · simp [Outcome.node, Outcome.over]

theorem ForwardingTable.relabels (base : Session) {table : ForwardingTable}
    (htable : table.Reached) : table.rule.Relabels base table.relabel where
  computes := (table.computes_step base).congr fun _ => step_relabel htable
  fitting := fitting_relabel htable
  leaves node := by
    simp only [rule, apply]
    split
    · split
      · simp [Outcome.node, Outcome.over]
      · simp [Outcome.node, Outcome.over]
    · simp [Outcome.node, Outcome.over]

theorem Rule.Relabels.leads_apply {rule : Rule} {relabel : Relabelling}
    (hrule : rule.Relabels base relabel) {session : Session} {node : Node}
    (hnode : session.Knows node) :
    Leads base.ReachedFrom session (rule.apply node) fun result later =>
      AnswersNormal (relabel.step node.normal) (result.map (·.node)) later := by
  apply Leads.of_map
  rw [hrule.leaves, map_eq_pure_bind]
  refine Leads.bind (hrule.computes session node hnode) ?_ ?_
  · exact fun outcome later _ houtcome => Leads.pure houtcome
  · exact fun fault later _ hfault => hfault

theorem fitting_of_relabels {rules : List Rule} {relabels : List Relabelling}
    (hrelabels : List.Forall₂ (Rule.Relabels base) rules relabels) :
    ∀ relabel ∈ relabels, relabel.Fitting := by
  induction hrelabels with
  | nil => simp
  | cons hrule _ ih => exact List.forall_mem_cons.mpr ⟨hrule.fitting, ih⟩

/-- A pass of rules that relabel relabels the plan by all of them. -/
theorem leads_rewrite_apply {session : Session} {node : Node} {rewriter : Rewriter}
    {relabels : List Relabelling}
    (hrelabels : List.Forall₂ (Rule.Relabels base) rewriter.rules relabels)
    (hnode : session.Knows node) :
    Leads (withJournal base.ReachedFrom) session (rewriter.rewrite node)
      fun result later => AnswersNormal
        ((Relabelling.compose relabels).apply node.normal) (result.map (·.node)) later := by
  have hcomputes : List.Forall₂ (Rule.Computes base) rewriter.rules
      (relabels.map Relabelling.step) :=
    List.forall₂_map_right_iff.mpr (hrelabels.imp fun _ _ hrule => hrule.computes)
  apply Leads.goesWith
  rintro store ⟨hreached, -, -⟩
  have hwhole := (hreached.sound.whole hnode).normal
  rw [← Relabelling.rewriteNode_eq_apply (fitting_of_relabels hrelabels) hwhole]
  exact (leads_rewrite_normal hcomputes rewriter rfl hnode).mono
    fun _ _ _ hresult => hresult.1

end Computes

theorem fitting_compose (bindings : Bindings) {table : ForwardingTable}
    (htable : table.Reached) :
    (Relabelling.compose [bindings.relabel, table.relabel]).Fitting := by
  apply Relabelling.Fitting.compose
  simpa using ⟨bindings.fitting_relabel, ForwardingTable.fitting_relabel htable⟩

end QueryPlan
