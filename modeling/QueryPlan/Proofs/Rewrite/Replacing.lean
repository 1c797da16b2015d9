import QueryPlan.Proofs.Annotations.Hints
import QueryPlan.Proofs.Rewrite.Normalising
import QueryPlan.Proofs.Rewrite.SingleRule

/-!
# A replacement leaves no target

A pass of a replacement goes from the leaves up, so it looks at each node over children in
which everything was replaced already.  A rebuilt node that has become the same as the
target is replaced in turn.  What is inserted is not looked at again, and need not be if the
target does not stand below the top of the replacement.

After one pass the replacement itself is all that is the same as the target.  The rule
leaves it, so another pass answers the very plan it was given.
-/

namespace QueryPlan

section

variable [ForeignTypes]

open Session

namespace Replacement

/-- Nothing below the top of the replacement is the same as the target. -/
def Unnested (rule : Replacement) : Prop :=
  ∀ child ∈ rule.replacement.children, ∀ part ∈ child.preorder,
    part.same rule.target = false

/-- Nothing is the same as the target but what has the handle of the replacement. -/
def Settled (rule : Replacement) (node : Node) : Prop :=
  ∀ part ∈ node.preorder, part.same rule.target = true → part.is rule.replacement = true

variable {rule : Replacement} {node : Node}

theorem leaves_of_kept (hkept : node.same rule.target = true →
    node.is rule.replacement = true) : rule.rule.Leaves node := by
  simp only [Rule.Leaves, Replacement.rule, apply]
  cases hsame : node.same rule.target with
  | false => simp
  | true => simp [hkept hsame]

/-- Where the rule puts the replacement, and where it leaves the node. -/
theorem over_eq {next last : Handle} {outcome : Outcome}
    (hrun : rule.rule.apply node next = .ok outcome last) :
    outcome.over node = rule.replacement ∨
      outcome.over node = node ∧
        (node.same rule.target = true → node.is rule.replacement = true) := by
  simp only [Replacement.rule, apply] at hrun
  split at hrun
  · cases hrun
    exact .inl rfl
  · rename_i hkept
    cases hrun
    refine .inr ⟨rfl, fun hsame => ?_⟩
    simpa [hsame] using hkept

theorem serves {base : Session} (hreplacement : base.Knows rule.replacement) :
    Serves base.ReachedFrom (fun outcome => [outcome.node]) rule.rule.apply := by
  intro session node hnode
  apply Leads.goesWith
  intro next hgoes
  have hknown := hgoes.2.2 rule.replacement hreplacement
  simp only [Replacement.rule, apply]
  split
  · exact Leads.pure (by simpa [AnswersKnown, Outcome.node] using hknown)
  · exact Leads.pure (by simpa [AnswersKnown, Outcome.node] using hnode)

/-- What a node is replaced by is settled: the top is the replacement, and nothing below
it is the same as the target. -/
theorem Unnested.settled_replacement (hunnested : rule.Unnested) :
    rule.Settled rule.replacement := by
  intro part hpart hsame
  rcases Node.mem_preorder_iff.mp hpart with rfl | ⟨child, hchild, hpart⟩
  · simp [Node.is]
  · rw [hunnested child hchild part hpart] at hsame
    cases hsame

theorem settled_iff : rule.Settled node ↔
    (node.same rule.target = true → node.is rule.replacement = true) ∧
      ∀ child ∈ node.children, rule.Settled child :=
  Node.forall_mem_preorder_iff

/-- The results of a pass are settled at every position, from the leaves up. -/
theorem settled_result {session : Session} (hunnested : rule.Unnested) {trace : Trace}
    (hminimal : trace.Everywhere (Trace.Minimal session))
    (hran : trace.Everywhere (Trace.Ran [rule.rule])) : rule.Settled trace.result := by
  induction trace using Trace.inductionOn with
  | step trace ih =>
      obtain ⟨store, store', happlied⟩ := hran.self
      obtain ⟨outcome, last, hrule, hover⟩ := Rewriter.exists_outcome_of_applyRules happlied
      rw [hover]
      rcases over_eq hrule with hput | ⟨hleft, hkept⟩
      · rw [hput]
        exact hunnested.settled_replacement
      · rw [hleft]
        refine settled_iff.mpr ⟨hkept, ?_⟩
        rw [hminimal.self.children]
        intro child hchild
        obtain ⟨part, hpart, rfl⟩ := List.mem_map.mp hchild
        exact ih part hpart (hminimal.part hpart) (hran.part hpart)

end Replacement

theorem Rule.Standard.serves {base : Session} {rule : Rule} (hrule : rule.Standard base) :
    Serves base.ReachedFrom (fun outcome => [outcome.node]) rule.apply := by
  cases hrule with
  | substitution bindings => exact (bindings.relabels base).serves
  | forwarding table htable => exact (ForwardingTable.relabels base htable).serves
  | replacement replacement _ hreplacement => exact Replacement.serves hreplacement

/-- One pass of an unnested replacement over a known plan makes every part that is the same
as the target the replacement itself.  Another pass from any state answers the very plan it
was given; so passes to the fixpoint, if two are allowed, answer what the first one does,
and report that they came to the fixpoint in the second pass, or in the first if it changed
nothing. -/
theorem replacement_leaves_no_target {session : Session} (hreached : session.Reached)
    {node : Node} (hnode : session.Knows node) {rule : Replacement}
    (hreplacement : session.Knows rule.replacement) (hunnested : rule.Unnested)
    {rewriter : Rewriter} (hrules : rewriter.rules = [rule.rule])
    {store store' : Store Journal} {outcome : Outcome} (hstore : session.next ≤ store.next)
    (hrun : rewriter.rewrite node store = .ok outcome store') :
    (∀ part ∈ outcome.node.preorder, part.same rule.target = true →
        part = rule.replacement) ∧
      (∀ later, rewriter.rewrite outcome.node later =
        .ok (.unchanged outcome.node) later) ∧
      ∃ records : Journal, store'.own = store.own ++ records ∧
        (∀ record ∈ records, record.IsApplication) ∧
        (2 ≤ rewriter.maxPasses → rewriter.rewriteToFixpoint node store = .ok outcome
          { store' with
            own := store.own ++ records ++
              [.fixpointReached (if outcome.isChanged then 2 else 1)] }) := by
  have hserves : ∀ other ∈ rewriter.rules,
      Serves session.ReachedFrom (fun outcome => [outcome.node]) other.apply := by
    simpa [hrules] using Replacement.serves hreplacement
  obtain ⟨trace, later, htrace, -, hlater, hextends, hknown, hminimal, hran⟩ :=
    Rewriter.exists_minimal_trace hreached hnode hserves hstore hrun
  rw [hrules] at hran
  have hresult : outcome.node = trace.result := by
    rw [htrace, Rewriter.node_outcome]
  rw [← hresult] at hknown
  have hsettled : rule.Settled outcome.node := by
    rw [hresult]
    exact Replacement.settled_result hunnested hminimal hran
  have hleaves : ∀ part ∈ outcome.node.preorder, ∀ other ∈ rewriter.rules,
      other.Leaves part := by
    simpa [hrules] using fun part hpart => Replacement.leaves_of_kept (hsettled part hpart)
  have hagain : rewriter.rewrite outcome.node = pure (.unchanged outcome.node) :=
    Rewriter.rewrite_of_leaves (hlater.sound.whole hknown) hleaves
  obtain ⟨records, hown, hrecords⟩ := Rewriter.exists_applications_of_rewrite hrun
  refine ⟨?_, congrFun hagain, records, hown, hrecords, ?_⟩
  · intro part hpart hsame
    have his := hsettled part hpart hsame
    exact hlater.sound.coherent part rule.replacement (hknown.part hpart)
      (hextends _ hreplacement) (by simpa [Node.is] using his)
  · intro hpasses
    rw [← hown]
    exact Rewriter.rewriteToFixpoint_of_rewrite hrun (congrFun hagain store') hpasses

end

open Session
open scoped Hints

/-- A sum in which a negation and an equal one are replaced by a third one that equals
both. -/
theorem replacement_leaves_no_target_negations :
    ∃ (session : Session) (sum : Node) (rule : Replacement) (rewriter : Rewriter)
      (store' : Store Journal) (outcome : Outcome),
      session.Reached ∧ session.Knows sum ∧ session.Knows rule.replacement ∧
      rule.Unnested ∧ rule.replacement.same rule.target = true ∧
      rule.replacement.handle ≠ rule.target.handle ∧
      rewriter.rewrite sum ⟨session.next, []⟩ = .ok outcome store' ∧
      outcome.node.children = [rule.replacement, rule.replacement] ∧
      (∀ part ∈ outcome.node.preorder, part.same rule.target = true →
        part = rule.replacement) ∧
      (∀ later, rewriter.rewrite outcome.node later =
        .ok (.unchanged outcome.node) later) ∧
      rewriter.rewriteToFixpoint sum ⟨session.next, []⟩ = .ok outcome
        { store' with own := store'.own ++ [.fixpointReached 2] } := by
  let p := (Label.parameter "p" .integer).node 0 .empty []
  let target := (Label.unary .negate).node 1 .empty [p]
  let q := (Label.parameter "p" .integer).node 2 .empty []
  let replacement := (Label.unary .negate).node 3 .empty [q]
  let other := (Label.unary .negate).node 4 .empty [p]
  let sum := (Label.binary .add).node 5 .empty [target, other]
  have hp : Reached ⟨1, [p]⟩ := (Reached.start 0).assemble (by simp) rfl
  have htarget : Reached ⟨2, [target, p]⟩ := hp.assemble (by simp) rfl
  have hq : Reached ⟨3, [q, target, p]⟩ := htarget.assemble (by simp) rfl
  have hreplacement : Reached ⟨4, [replacement, q, target, p]⟩ := hq.assemble (by simp) rfl
  have hother : Reached ⟨5, [other, replacement, q, target, p]⟩ :=
    hreplacement.assemble (by simp) rfl
  let session : Session := ⟨6, [sum, other, replacement, q, target, p]⟩
  have hreached : session.Reached := hother.assemble (by simp) rfl
  have hknown : ∀ node ∈ [sum, replacement], session.Knows node := by
    intro node hnode
    apply knows_of_mem_held
    rcases List.mem_pair.mp hnode with rfl | rfl <;> simp [session]
  let rule : Replacement := ⟨target, replacement⟩
  have hunnested : rule.Unnested := by
    intro child hchild part hpart
    obtain rfl : child = q := List.mem_singleton.mp hchild
    obtain rfl : part = q := List.mem_singleton.mp hpart
    rfl
  let rewriter : Rewriter := .ofRules [rule.rule]
  obtain ⟨outcome, store', hrun, hchanged, hchildren⟩ :
      ∃ outcome store', rewriter.rewrite sum ⟨session.next, []⟩ = .ok outcome store' ∧
        outcome.isChanged = true ∧ outcome.node.children = [replacement, replacement] :=
    ⟨_, _, rfl, rfl, rfl⟩
  obtain ⟨hreplaced, hagain, records, hown, -, hfixpoint⟩ :=
    replacement_leaves_no_target hreached (hknown sum (by simp))
      (hknown replacement (by simp)) hunnested (show rewriter.rules = [rule.rule] from rfl)
      (le_refl _) hrun
  rw [hchanged, ← hown] at hfixpoint
  exact ⟨session, sum, rule, rewriter, store', outcome, hreached, hknown sum (by simp),
    hknown replacement (by simp), hunnested, by decide, by decide, hrun, hchildren, hreplaced,
    hagain, hfixpoint (by decide)⟩

end QueryPlan
