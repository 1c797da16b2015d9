import QueryPlan.Proofs.Node.Moved
import QueryPlan.Proofs.Rewrite.StandardRules

/-!
# Rules that are functions of the node

A rule sees a node and takes handles, and nothing keeps it from looking at how many were
given out before.  One that does not is uniform: had the handles from some bound on been
given out later, it would do the same under the later handles.  The bound has to be above
the nodes that the rule holds on to, which may be told from others by their handles.

The rules of the library are uniform, and with uniform rules so is a pass.  So a pass that
answered a plan whose handles are all below the bound answers it whenever it is repeated.
-/

namespace QueryPlan

/-! ## Actions under later handles -/

namespace Shift

variable {shift : Shift} {σ α β : Type}

/-- The next handles of an action and of the same action later. -/
def Meets (shift : Shift) (next next' : Handle) : Prop :=
  shift.first ≤ next ∧ next' = next + shift.gap

theorem Meets.succ {next next' : Handle} (hnext : shift.Meets next next') :
    shift.Meets (next + 1) (next' + 1) := by
  obtain ⟨hfirst, rfl⟩ := hnext
  exact ⟨Nat.le_succ_of_le hfirst, Nat.add_right_comm next shift.gap 1⟩

theorem Meets.handle_eq {next next' : Handle} (hnext : shift.Meets next next') :
    next' = shift.handle next := by
  rw [handle_of_le hnext.1, hnext.2]

/-- The caller's own states have no part in it. -/
def MeetsIn (shift : Shift) (store store' : Store σ) : Prop :=
  shift.Meets store.next store'.next

theorem follows_ofBuild {read : α → β} {build : Build α} {build' : Build β}
    (hbuild : Follows shift.Meets read build build') :
    Follows (shift.MeetsIn (σ := σ)) read (Work.ofBuild build) (Work.ofBuild build') := by
  intro store store' hstores
  obtain ⟨hfinal, hanswer⟩ := hbuild store.next store'.next hstores
  unfold Work.ofBuild
  cases hrun : build store.next <;> cases hrun' : build' store'.next <;>
    rw [hrun, hrun'] at hfinal hanswer <;> exact ⟨hfinal, hanswer⟩

theorem follows_fresh : Follows shift.Meets shift.handle fresh fresh :=
  fun _ _ hnext => ⟨hnext.succ, congrArg Except.ok hnext.handle_eq⟩

theorem follows_report (record : Record) :
    Follows shift.MeetsIn id (Rewriter.report record) (Rewriter.report record) :=
  fun _ _ hstores => ⟨hstores, rfl⟩

end Shift

/-! ## Building -/

variable [ForeignTypes]

namespace Shift

variable {shift : Shift} {σ α β : Type} {node : Node}

theorem follows_compose (label : Label) (annotations : Annotations) (children : List Node) :
    Follows shift.Meets (Node.moved shift) (Node.compose label annotations children)
      (Node.compose label (annotations.moved shift) (children.map (Node.moved shift))) := by
  intro next next' hnext
  rw [Node.compose_eq, Node.compose_eq, Label.checkParts_map (fun node => node.moved_type shift)]
  cases label.checkParts children with
  | error fault => exact ⟨hnext, rfl⟩
  | ok =>
      refine ⟨hnext.succ, congrArg Except.ok ?_⟩
      rw [Node.moved_node, hnext.handle_eq]

theorem follows_update (children : List Node) :
    Follows shift.Meets (Node.moved shift) (node.update children)
      ((node.moved shift).update (children.map (Node.moved shift))) := by
  unfold Node.update
  rw [Node.moved_children, Node.areAll_moved, Node.moved_label, Node.moved_annotations]
  split
  · exact Follows.pure
  · exact follows_compose node.label node.annotations children

theorem follows_visitFrom {change : Node → Work σ Node} (label : Label) (place : Nat)
    {children : List Node}
    (hchange : ∀ child ∈ children,
      Follows shift.MeetsIn (Node.moved shift) (change child) (change (child.moved shift))) :
    Follows shift.MeetsIn (List.map (Node.moved shift))
      (Node.visitFrom change label place children)
      (Node.visitFrom change label place (children.map (Node.moved shift))) := by
  exact Node.follows_visitFrom (fun node => node.expect_moved) label place hchange

theorem follows_visitChildren {change : Node → Work σ Node}
    (hchange : ∀ child ∈ node.children,
      Follows shift.MeetsIn (Node.moved shift) (change child) (change (child.moved shift))) :
    Follows shift.MeetsIn (Node.moved shift) (node.visitChildren change)
      ((node.moved shift).visitChildren change) := by
  unfold Node.visitChildren
  rw [Node.moved_label, Node.moved_children]
  exact (follows_visitFrom node.label 0 hchange).bind fun children =>
    follows_ofBuild (follows_update children)

end Shift

/-! ## Uniform rules -/

def Outcome.moved (shift : Shift) : Outcome → Outcome
  | changed node => changed (node.moved shift)
  | unchanged node => unchanged (node.moved shift)

/-- What a rule does is a function of the node that it is given: from handles that are given
out later it does the same.  Only plans whose handles are below `start` may be known to it. -/
def Rule.Uniform (start : Handle) (rule : Rule) : Prop :=
  ∀ (shift : Shift) (node : Node), start ≤ shift.first →
    Follows shift.Meets (Outcome.moved shift) (rule.apply node)
      (rule.apply (node.moved shift))

theorem Bindings.uniform (bindings : Bindings) (start : Handle) :
    bindings.rule.Uniform start := by
  intro shift node _
  cases hlabel : node.label with
  | parameter name type =>
      simp only [rule, apply, Node.moved_label, hlabel]
      cases bindings.get? name with
      | none => exact Follows.pure
      | some value =>
          simp only
          split
          · refine Shift.follows_fresh.bind fun handle => ?_
            have hconstant :=
              Node.moved_node shift (.constant value type) handle node.annotations []
            rw [List.map_nil] at hconstant
            rw [Node.moved_annotations, ← hconstant]
            exact Follows.pure
          · exact Follows.throw
  | _ =>
      simp only [rule, apply, Node.moved_label, hlabel]
      exact Follows.pure

theorem ForwardingTable.uniform (table : ForwardingTable) (start : Handle) :
    table.rule.Uniform start := by
  intro shift node _
  cases hlabel : node.label with
  | call signature type =>
      simp only [rule, apply, Node.moved_label, hlabel]
      cases table.resolve? signature with
      | none => exact Follows.pure
      | some target =>
          simp only [Node.withSignature, Node.moved_label, hlabel, Node.moved_annotations,
            Node.moved_children]
          exact (Shift.follows_compose _ _ _).bind fun _ => Follows.pure
  | _ =>
      simp only [rule, apply, Node.moved_label, hlabel]
      exact Follows.pure

theorem Replacement.uniform {replacement : Replacement} {start : Handle}
    (htarget : replacement.target.Below start)
    (hreplacement : replacement.replacement.Below start) :
    replacement.rule.Uniform start := by
  intro shift node hstart
  simp only [rule, apply, (htarget.mono hstart).same_moved, (hreplacement.mono hstart).is_moved]
  split
  · have hfollows : Follows shift.Meets (Outcome.moved shift)
        (pure (.changed replacement.replacement))
        (pure (.changed (replacement.replacement.moved shift))) := Follows.pure
    rwa [(hreplacement.mono hstart).moved_eq] at hfollows
  · exact Follows.pure

theorem Rule.Standard.uniform {base : Session} (hsound : base.Sound) {rule : Rule}
    (hrule : rule.Standard base) : rule.Uniform base.next := by
  cases hrule with
  | substitution bindings => exact bindings.uniform base.next
  | forwarding table _ => exact table.uniform base.next
  | replacement replacement htarget hreplacement =>
      exact Replacement.uniform (hsound.below htarget) (hsound.below hreplacement)

/-! ## Passes of uniform rules -/

namespace Rewriter

variable {shift : Shift} {rules : List Rule} {start : Handle}

theorem follows_applyRules (hrules : ∀ rule ∈ rules, rule.Uniform start)
    (hstart : start ≤ shift.first) (node : Node) :
    Follows shift.MeetsIn (Node.moved shift) (applyRules rules node)
      (applyRules rules (node.moved shift)) := by
  induction rules generalizing node with
  | nil => exact Follows.pure
  | cons rule rest ih =>
      obtain ⟨hrule, hrest⟩ := List.forall_mem_cons.mp hrules
      refine (Shift.follows_ofBuild (hrule shift node hstart)).bind fun outcome => ?_
      cases outcome with
      | unchanged kept => exact ih hrest node
      | changed new =>
          simp only [Outcome.moved, Node.moved_kind]
          exact (Shift.follows_report _).bind fun _ => ih hrest new

theorem follows_rewriteNode (hrules : ∀ rule ∈ rules, rule.Uniform start)
    (hstart : start ≤ shift.first) (node : Node) :
    Follows shift.MeetsIn (Node.moved shift) (rewriteNode rules node)
      (rewriteNode rules (node.moved shift)) := by
  induction node using Node.inductionOn with
  | step node ih =>
      rw [rewriteNode_eq, rewriteNode_eq]
      exact (Shift.follows_visitChildren ih).bind fun rebuilt =>
        follows_applyRules hrules hstart rebuilt

/-- A pass from later handles over a plan that is moved up. -/
theorem follows_rewrite {rewriter : Rewriter}
    (hrules : ∀ rule ∈ rewriter.rules, rule.Uniform start) (hstart : start ≤ shift.first)
    (node : Node) :
    Follows shift.MeetsIn (Outcome.moved shift) (rewriter.rewrite node)
      (rewriter.rewrite (node.moved shift)) := by
  refine (follows_rewriteNode hrules hstart node).bind fun result => ?_
  have houtcome : outcome (node.moved shift) (result.moved shift) =
      (outcome node result).moved shift := by
    unfold outcome
    rw [Node.is_moved]
    split <;> rfl
  rw [houtcome]
  exact Follows.pure

end Rewriter

end QueryPlan
