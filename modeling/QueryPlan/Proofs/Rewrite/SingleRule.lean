import QueryPlan.Proofs.Node.Relabelled
import QueryPlan.Proofs.Rewrite.Reallocation
import QueryPlan.Proofs.Rewrite.RelabellingRules

/-!
# One pass of one rule

That a pass of a relabelling rule succeeds, or with which fault it fails, is known from
normal forms.  What it answers is known more exactly from its trace: a minimal trace
keeps every node over kept children, the rule does the rest, and so the answer is the
given plan relabelled, down to the nodes that are kept.
-/

namespace QueryPlan

theorem Relabelling.Total.ne_error {relabel : Relabelling} {fault : NodeError}
    (htotal : relabel.Total) (label : Label) : relabel label ≠ .error fault := by
  intro hfault
  obtain ⟨new, hnew⟩ := htotal label
  rw [hfault] at hnew
  cases hnew

theorem Work.exists_of_ofBuild_eq_ok {σ α : Type} {build : Build α} {value : α}
    {store store' : Store σ} (hrun : Work.ofBuild build store = .ok value store') :
    ∃ last, build store.next = .ok value last := by
  unfold Work.ofBuild at hrun
  cases hbuild : build store.next with
  | error fault next => simp [hbuild] at hrun
  | ok answer next =>
      rw [hbuild] at hrun
      cases hrun
      exact ⟨next, rfl⟩

variable [ForeignTypes]

open Session

/-! ## Faults -/

namespace Relabelling

variable {relabel : Relabelling} {fault : NodeError}

def fault? (relabel : Relabelling) (node : Node) : Option NodeError :=
  match relabel node.label with
  | .ok _ => none
  | .error fault => some fault

theorem Total.fault?_eq_none (htotal : relabel.Total) (node : Node) :
    relabel.fault? node = none := by
  obtain ⟨new, hnew⟩ := htotal node.label
  rw [fault?, hnew]

theorem applyAll_eq_error_iff {nodes : List Node}
    (hnodes : ∀ node ∈ nodes, ∀ fault, relabel.apply node = .error fault ↔
      node.preorder.findSome? relabel.fault? = some fault) :
    relabel.applyAll nodes = .error fault ↔
      (nodes.flatMap Node.preorder).findSome? relabel.fault? = some fault := by
  induction nodes with
  | nil => simp [applyAll]
  | cons node rest ih =>
      obtain ⟨hnode, hrest⟩ := List.forall_mem_cons.mp hnodes
      rw [applyAll, List.flatMap_cons, List.findSome?_append]
      cases hnew : relabel.apply node with
      | error first =>
          rw [(hnode first).mp hnew, Option.some_or]
          simp [bind, Except.bind]
      | ok new =>
          have hnone : node.preorder.findSome? relabel.fault? = none := by
            apply Option.eq_none_iff_forall_ne_some.mpr
            intro first hfirst
            rw [(hnode first).mpr hfirst] at hnew
            cases hnew
          rw [hnone, Option.none_or, ← ih hrest]
          cases relabel.applyAll rest <;> simp [bind, Except.bind, pure, Except.pure]

/-- The first fault in preorder is met, if faults are labels without children. -/
theorem apply_eq_error_iff
    (hleaves : ∀ label fault, relabel label = .error fault → label.arity = 0)
    {node : Node} (hnode : node.Whole) :
    relabel.apply node = .error fault ↔
      node.preorder.findSome? relabel.fault? = some fault := by
  induction node using Node.inductionOn generalizing fault with
  | step node ih =>
      obtain ⟨hwell, hchildren⟩ := Node.whole_iff.mp hnode
      rw [apply_eq, Node.preorder_eq, List.findSome?_cons, fault?]
      cases hnew : relabel node.label with
      | error first =>
          -- Without children the node is met first in preorder as well as on the way up.
          have hnone : node.children = [] := by
            apply List.length_eq_zero_iff.mp
            rw [hwell.arity]
            exact hleaves _ first hnew
          rw [hnone]
          simp [applyAll, bind, Except.bind]
      | ok new =>
          have hfaults : relabel.applyAll node.children = .error fault ↔
              (node.children.flatMap Node.preorder).findSome? relabel.fault? = some fault :=
            applyAll_eq_error_iff fun child hchild fault =>
              ih child hchild (hchildren child hchild)
          simp only [← hfaults]
          cases relabel.applyAll node.children <;> simp [bind, Except.bind, pure, Except.pure]

end Relabelling

/-! ## Answers -/

/-- The answer is the given node with its label changed, and the very same node where the
change keeps its label. -/
structure Outcome.Puts (change : Label → Label) (node : Node) (outcome : Outcome) : Prop where
  label : (outcome.over node).label = change node.label
  annotations : (outcome.over node).annotations = node.annotations
  children : (outcome.over node).children = node.children
  kept : change node.label = node.label → outcome.over node = node

theorem Outcome.puts_unchanged {change : Label → Label} {node : Node}
    (hkept : change node.label = node.label) : (unchanged node).Puts change node :=
  ⟨hkept.symm, rfl, rfl, fun _ => rfl⟩

def Rule.Puts (rule : Rule) (change : Label → Label) : Prop :=
  ∀ (node : Node) (next last : Handle) (outcome : Outcome),
    node.children.length = node.label.arity →
    rule.apply node next = .ok outcome last → outcome.Puts change node

theorem Rewriter.exists_outcome_of_applyRules {rule : Rule} {node result : Node}
    {store store' : Store Journal} (hrun : applyRules [rule] node store = .ok result store') :
    ∃ outcome last, rule.apply node store.next = .ok outcome last ∧
      result = outcome.over node := by
  obtain ⟨outcome, middle, hrule, hrest⟩ := Attempt.bind_eq_ok_iff.mp hrun
  obtain ⟨last, hbuild⟩ := Work.exists_of_ofBuild_eq_ok hrule
  refine ⟨outcome, last, hbuild, ?_⟩
  cases outcome with
  | unchanged kept =>
      cases hrest
      rfl
  | changed new =>
      obtain ⟨_, later, -, hrest⟩ := Attempt.bind_eq_ok_iff.mp hrest
      cases hrest
      rfl

theorem Trace.Minimal.arity {session : Session} {trace : Trace}
    (hminimal : trace.Minimal session) (hgiven : trace.given.WellFormed) :
    trace.rebuilt.children.length = trace.rebuilt.label.arity := by
  rw [hminimal.children, hminimal.label, ← hgiven.arity, ← hminimal.parts, List.length_map,
    List.length_map]

/-- The result of a traced pass of one rule is the given plan relabelled. -/
theorem Trace.relabelledBy {session : Session} {rule : Rule} {change : Label → Label}
    (hputs : rule.Puts change)
    (htypes : ∀ label types, (change label).typeOf types = label.typeOf types)
    {trace : Trace} (hminimal : trace.Everywhere (Minimal session))
    (hran : trace.Everywhere (Ran [rule])) (hgiven : trace.given.Whole)
    (hresult : trace.result.Whole) :
    Node.RelabelledBy change trace.given trace.result := by
  induction trace using Trace.inductionOn with
  | step trace ih =>
      have hself := hminimal.self
      obtain ⟨hgivenWell, hgivenParts⟩ := Node.whole_iff.mp hgiven
      obtain ⟨hresultWell, hresultParts⟩ := Node.whole_iff.mp hresult
      obtain ⟨store, store', happlied⟩ := hran.self
      obtain ⟨outcome, last, hrule, hover⟩ := Rewriter.exists_outcome_of_applyRules happlied
      obtain ⟨hlabel, hannotations, hchildren, hkept⟩ :=
        hputs trace.rebuilt store.next last outcome (hself.arity hgivenWell) hrule
      rw [← hover] at hlabel hannotations hchildren hkept
      rw [hself.label] at hlabel hkept
      rw [hself.children] at hchildren
      rw [← hself.parts] at hgivenParts
      rw [hchildren] at hresultParts
      have hparts : ∀ part ∈ trace.parts,
          Node.RelabelledBy change part.given part.result := fun part hpart =>
        ih part hpart (hminimal.part hpart) (hran.part hpart)
          (hgivenParts _ (List.mem_map_of_mem hpart))
          (hresultParts _ (List.mem_map_of_mem hpart))
      refine .of_wellFormed hgivenWell hresultWell htypes hlabel
        (hannotations.trans hself.annotations) ?_ ?_
      · -- Over kept children nothing was rebuilt, and the rule kept the node.
        intro hsame hsameChildren
        rw [hchildren, ← hself.parts, List.map_eq_map_iff] at hsameChildren
        calc
          trace.result = trace.rebuilt := hkept (hlabel.symm.trans hsame)
          _ = trace.given := hself.kept (hself.not_reallocated hsameChildren)
      · rw [hchildren, ← hself.parts, List.forall₂_map_left_iff, List.forall₂_map_right_iff]
        exact List.forall₂_same.mpr hparts

section Passes

variable {session : Session} {node : Node} {rewriter : Rewriter} {rule : Rule}
  {relabel : Relabelling} {store : Store Journal}

theorem Rule.Relabels.serves (hrule : rule.Relabels session relabel) :
    Serves session.ReachedFrom (fun outcome => [outcome.node]) rule.apply := by
  intro later node hnode
  refine (hrule.leads_apply hnode).mono ?_
  rintro result last - ⟨hknown, -⟩
  cases result with
  | error fault => trivial
  | ok outcome => exact hknown

theorem Rewriter.normalAnswer_rewrite_single (hreached : session.Reached)
    (hnode : session.Knows node) (hrules : rewriter.rules = [rule])
    (hrule : rule.Relabels session relabel) (hstore : session.next ≤ store.next) :
    normalAnswer (answer (rewriter.rewrite node store)) = relabel.apply node.normal := by
  have hlater : Knows ⟨store.next, session.held⟩ node := hnode
  have hrelabels : List.Forall₂ (Rule.Relabels session) rewriter.rules [relabel] := by
    rw [hrules]
    exact .cons hrule .nil
  rw [normalAnswer_of_leads hreached hstore (leads_rewrite_apply hrelabels hlater),
    Relabelling.compose_singleton]

/-- A pass fails over the first fault in the plan, if faults are labels without
children. -/
theorem Rewriter.answer_eq_error_iff (hreached : session.Reached)
    (hnode : session.Knows node) (hrules : rewriter.rules = [rule])
    (hrule : rule.Relabels session relabel)
    (hleaves : ∀ label fault, relabel label = .error fault → label.arity = 0)
    (hstore : session.next ≤ store.next) {fault : NodeError} :
    answer (rewriter.rewrite node store) = .error fault ↔
      (node.preorder.map Node.normal).findSome? relabel.fault? = some fault := by
  rw [← Node.preorder_normal,
    ← Relabelling.apply_eq_error_iff hleaves (hreached.sound.whole hnode).normal,
    ← normalAnswer_rewrite_single hreached hnode hrules hrule hstore]
  cases answer (rewriter.rewrite node store) <;> simp [normalAnswer, Except.map]

theorem Rewriter.relabelledBy_of_rewrite (hreached : session.Reached)
    (hnode : session.Knows node) (hrules : rewriter.rules = [rule])
    (hrule : rule.Relabels session relabel) {change : Label → Label}
    (hputs : rule.Puts change)
    (htypes : ∀ label types, (change label).typeOf types = label.typeOf types)
    (hstore : session.next ≤ store.next) {store' : Store Journal} {outcome : Outcome}
    (hrun : rewriter.rewrite node store = .ok outcome store') :
    outcome.node.Whole ∧ Node.RelabelledBy change node outcome.node := by
  have hserves : ∀ other ∈ rewriter.rules,
      Serves session.ReachedFrom (fun outcome => [outcome.node]) other.apply := by
    simpa [hrules] using hrule.serves
  obtain ⟨trace, later, rfl, rfl, hlater, -, hknown, hminimal, hran⟩ :=
    exists_minimal_trace hreached hnode hserves hstore hrun
  rw [hrules] at hran
  have hwhole := hlater.sound.whole hknown
  rw [node_outcome]
  exact ⟨hwhole, Trace.relabelledBy hputs htypes hminimal hran (hreached.sound.whole hnode)
    hwhole⟩

/-- A pass over a plan without faults answers it relabelled. -/
theorem Rewriter.exists_relabelledBy (hreached : session.Reached)
    (hnode : session.Knows node) (hrules : rewriter.rules = [rule])
    (hrule : rule.Relabels session relabel) {change : Label → Label}
    (hputs : rule.Puts change)
    (htypes : ∀ label types, (change label).typeOf types = label.typeOf types)
    (hleaves : ∀ label fault, relabel label = .error fault → label.arity = 0)
    (hstore : session.next ≤ store.next)
    (hnone : ∀ part ∈ node.preorder, relabel.fault? part.normal = none) :
    ∃ outcome store', rewriter.rewrite node store = .ok outcome store' ∧
      outcome.node.Whole ∧ Node.RelabelledBy change node outcome.node := by
  cases hrun : rewriter.rewrite node store with
  | error fault store' =>
      have hanswer : answer (rewriter.rewrite node store) = .error fault := by
        rw [hrun]
        rfl
      rw [answer_eq_error_iff hreached hnode hrules hrule hleaves hstore, List.findSome?_map]
        at hanswer
      obtain ⟨part, hpart, hfault⟩ := List.exists_of_findSome?_eq_some hanswer
      rw [Function.comp_apply, hnone part hpart] at hfault
      cases hfault
  | ok outcome store' =>
      exact ⟨outcome, store', rfl,
        relabelledBy_of_rewrite hreached hnode hrules hrule hputs htypes hstore hrun⟩

end Passes

end QueryPlan
