import QueryPlan.Proofs.Annotations.Hints
import QueryPlan.Proofs.Session.Traversal

/-!
# Reached sessions

The sessions that a caller can come to.  It starts with no plans and makes calls,
traversals and rewritings in any order; it may forget plans, and handles may be
given out elsewhere.  What the operations of the caller do inside a traversal is
left open, as long as they leave sessions that are reached themselves.

Every reached session is sound, so every node that is ever met is well formed.
-/

namespace QueryPlan

section

variable [ForeignTypes]

namespace Session

/-- Traversals of a known node by an operation of the caller. -/
inductive Traversing {σ : Type} (goes : Store σ → Session → Prop)
    (session : Session) : Work σ Node → Prop
  | visitChildren (change : Node → Work σ Node) (node : Node) :
      session.Knows node → Serves goes ([·]) change →
      Traversing goes session (node.visitChildren change)
  | transformUp (op : Node → Work σ Outcome) (node : Node) :
      session.Knows node → Serves goes (fun outcome => [outcome.node]) op →
      Traversing goes session (node.transformUp op)
  | transformDown (op : Node → Work σ Outcome) (depth : Nat) (node : Node) :
      session.Knows node → Serves goes (fun outcome => [outcome.node]) op →
      Traversing goes session (node.transformDown op depth)

/-- One pass or all passes of a rewriter over a known node. -/
inductive Rewriting (rewriter : Rewriter) (session : Session) :
    Work Journal Outcome → Prop
  | rewrite (node : Node) :
      session.Knows node → Rewriting rewriter session (rewriter.rewrite node)
  | rewriteToFixpoint (node : Node) :
      session.Knows node →
      Rewriting rewriter session (rewriter.rewriteToFixpoint node)

/-- The sessions that a caller can come to. -/
inductive Reached : Session → Prop
  | start (next : Handle) : Reached ⟨next, []⟩
  | forget (later session : Session) :
      Reached later → later.next ≤ session.next → later.Extends session →
      Reached session
  | call (session : Session) {action : Build Node} {node : Node} {next : Handle} :
      Reached session → session.Call action →
      action session.next = .ok node next →
      Reached ⟨next, node :: session.held⟩
  | traverse {σ : Type} (goes : Store σ → Session → Prop) (session : Session)
      {own own' : σ} {action : Work σ Node} {node : Node} {next : Handle} :
      (∀ state later, goes state later → Reached later) →
      (∀ state later, goes state later → later.next = state.next) →
      (∀ own, Rebuilds fun next later => goes ⟨next, own⟩ later) →
      Traversing goes session action →
      goes ⟨session.next, own⟩ session →
      action ⟨session.next, own⟩ = .ok node ⟨next, own'⟩ →
      Reached ⟨next, node :: session.held⟩
  | rewrite (goes : Handle → Session → Prop) (session : Session)
      {rewriter : Rewriter} {journal journal' : Journal}
      {action : Work Journal Outcome} {outcome : Outcome} {next : Handle} :
      (∀ next later, goes next later → Reached later) →
      (∀ next later, goes next later → later.next = next) →
      Rebuilds goes →
      (∀ rule ∈ rewriter.rules,
        Serves goes (fun outcome => [outcome.node]) rule.apply) →
      Rewriting rewriter session action →
      goes session.next session →
      action ⟨session.next, journal⟩ = .ok outcome ⟨next, journal'⟩ →
      Reached ⟨next, outcome.node :: session.held⟩

/-! ## Soundness of reached sessions -/

section Leading

variable {σ : Type} {goes : Store σ → Session → Prop} {session : Session}

theorem Traversing.leads (hrebuilds : ∀ own, Rebuilds fun next later =>
      goes ⟨next, own⟩ later)
    {action : Work σ Node} (htraversing : Traversing goes session action) :
    Leads goes session action (AnswersKnown ([·])) := by
  cases htraversing with
  | visitChildren change node hnode hchange =>
      exact leads_visitChildren hrebuilds
        (fun child _ later hknown => hchange later child hknown) hnode
  | transformUp op node hnode hop => exact leads_transformUp hrebuilds hop hnode
  | transformDown op depth node hnode hop =>
      exact leads_transformDown hrebuilds hop depth hnode

theorem Rewriting.leads {goes : Handle → Session → Prop} {rewriter : Rewriter}
    (hrebuilds : Rebuilds goes)
    (hrules : ∀ rule ∈ rewriter.rules,
      Serves goes (fun outcome => [outcome.node]) rule.apply)
    {action : Work Journal Outcome}
    (hrewriting : Rewriting rewriter session action) :
    Leads (withJournal goes) session action
      (AnswersKnown fun outcome => [outcome.node]) := by
  cases hrewriting with
  | rewrite node hnode => exact leads_rewrite hrebuilds hrules hnode
  | rewriteToFixpoint node hnode =>
      exact leads_rewriteToFixpoint hrebuilds hrules hnode

theorem sound_of_leads {α : Type} (node : α → Node) {action : Work σ α}
    (hleads : Leads goes session action (AnswersKnown fun value => [node value]))
    (hsound : ∀ state later, goes state later → later.Sound)
    (hnext : ∀ state later, goes state later → later.next = state.next)
    {own own' : σ} {value : α} {next : Handle}
    (hgoes : goes ⟨session.next, own⟩ session)
    (hrun : action ⟨session.next, own⟩ = .ok value ⟨next, own'⟩) :
    Sound ⟨next, node value :: session.held⟩ := by
  obtain ⟨later, hlater, hfinal, hknown⟩ := hleads _ hgoes
  rw [hrun] at hfinal hknown
  apply (hsound _ later hfinal).weaken (le_of_eq (hnext _ later hfinal))
  intro part hpart
  rcases (knows_cons_iff next session.next).mp hpart with hpart | hpart
  · exact (hknown (node value) List.mem_cons_self).part hpart
  · exact hlater part hpart

end Leading

theorem Reached.sound {session : Session} (hreached : session.Reached) :
    session.Sound := by
  induction hreached with
  | start next => exact sound_start next
  | forget later session _ hnext hknown ih => exact ih.weaken hnext hknown
  | call session _ hcall hrun ih =>
      have hmakes := ih.makes_of_call hcall
      rw [hrun] at hmakes
      exact hmakes.sound ih
  | traverse goes session _ hnext hrebuilds htraversing hgoes hrun ih =>
      exact sound_of_leads id (htraversing.leads hrebuilds) ih hnext
        hgoes hrun
  | rewrite goes session _ hnext hrebuilds hrules hrewriting hgoes hrun ih =>
      exact sound_of_leads Outcome.node (hrewriting.leads hrebuilds hrules)
        (fun state => ih state.next) (fun state => hnext state.next) hgoes hrun

/-! ## Operations that leave reached sessions -/

/-- Reached sessions in which everything known to `base` is known.  Operations
that lead from such sessions to such sessions may be called in traversals. -/
def ReachedFrom (base : Session) (next : Handle) (later : Session) : Prop :=
  later.Reached ∧ later.next = next ∧ later.Extends base

section ReachedFrom

variable {base session : Session}

theorem leads_of_call {action : Build Node} (hcall : session.Call action) :
    Leads base.ReachedFrom session action (AnswersKnown ([·])) := by
  rintro _ ⟨hreached, rfl, hbase⟩
  have hmakes := hreached.sound.makes_of_call hcall
  cases hrun : action session.next with
  | ok node next =>
      refine ⟨⟨next, node :: session.held⟩, extends_cons next session node,
        ⟨hreached.call session hcall hrun, rfl,
          (extends_cons next session node).trans hbase⟩, ?_⟩
      intro other hother
      rw [List.mem_singleton.mp hother]
      exact knows_of_mem_held List.mem_cons_self
  | error fault next =>
      rw [hrun] at hmakes
      exact ⟨session, .refl session, ⟨hreached, hmakes.symm, hbase⟩, trivial⟩

theorem rebuilds_reachedFrom (base : Session) : Rebuilds base.ReachedFrom :=
  fun _ node children hnode hchildren hcategories =>
    leads_of_call (.update node children hnode hchildren hcategories)

theorem Reached.assemble (hreached : session.Reached) {label : Label}
    {children : List Node} (hchildren : ∀ child ∈ children, child ∈ session.held)
    (hrun : Node.assemble label children session.next =
      .ok (label.node session.next .empty children) (session.next + 1)) :
    Reached ⟨session.next + 1,
      label.node session.next .empty children :: session.held⟩ :=
  hreached.call session (.assemble label children fun child hchild =>
    knows_of_mem_held (hchildren child hchild)) hrun

theorem Reached.of_traversing {σ : Type} {action : Work σ Node} {node : Node}
    {next : Handle} (hreached : session.Reached) (own own' : σ)
    (htraversing : Traversing
      (fun store later => session.ReachedFrom store.next later) session action)
    (hrun : action ⟨session.next, own⟩ = .ok node ⟨next, own'⟩) :
    Reached ⟨next, node :: session.held⟩ :=
  .traverse _ session (fun _ _ hgoes => hgoes.1) (fun _ _ hgoes => hgoes.2.1)
    (fun _ => rebuilds_reachedFrom session) htraversing
    ⟨hreached, rfl, .refl session⟩ hrun

end ReachedFrom

/-! ## Well-formedness -/

/-- Whatever calls, traversals and rewritings a caller makes, every part of
every plan that it comes to hold is well formed. -/
theorem wellFormed_of_reached {session : Session} (hreached : session.Reached)
    {root : Node} (hroot : root ∈ session.held) {node : Node}
    (hnode : node ∈ root.preorder) : node.WellFormed :=
  hreached.sound.wellFormed node ⟨root, hroot, hnode⟩

end Session

end

open scoped Hints

namespace Session

/-- A join whose parts were annotated in a transformation. -/
theorem wellFormed_of_reached_annotatedJoin :
    ∃ (session : Session) (join predicate : Node), session.Reached ∧
      join ∈ session.held ∧ join.predicate? = some predicate ∧
      predicate.annotations.entries ≠ [] ∧ predicate.WellFormed := by
  let mark : Node → Work Unit Outcome := fun node => do
    return .changed (← node.annotate "seen" (.literal (.bool true)))
  have hmark : ∀ base : Session, Serves
      (fun (store : Store Unit) later => base.ReachedFrom store.next later)
      (fun outcome => [outcome.node]) mark := by
    intro base session node hnode
    refine Leads.bind (Leads.ofBuild fun _ =>
      leads_of_call (.annotate node _ _ hnode)) ?_ (fun _ _ _ _ => trivial)
    intro annotated later hlater hannotated
    exact Leads.pure hannotated
  let table := (Label.table "t" none none).node 0 .empty []
  let column := (Label.column none "c" .boolean).node 1 .empty []
  let join := (Label.joinOn .inner).node 2 .empty [table, column]
  have htable : Reached ⟨1, [table]⟩ := (Reached.start 0).assemble (by simp) rfl
  have hcolumn : Reached ⟨2, [column, table]⟩ := htable.assemble (by simp) rfl
  have hjoin : Reached ⟨3, [join, column, table]⟩ := hcolumn.assemble (by simp) rfl
  let marks : Handle → Annotations := fun handle =>
    ⟨some handle, [("seen", ⟨"seen", .literal (.bool true)⟩)]⟩
  let predicate := (Label.column none "c" .boolean).node 4 (marks 4) []
  let marked := (Label.joinOn .inner).node 6 (marks 6)
    [(Label.table "t" none none).node 3 (marks 3) [], predicate]
  have hmarked : Reached ⟨7, [marked, join, column, table]⟩ :=
    hjoin.of_traversing () () (.transformUp mark join
      (knows_of_mem_held List.mem_cons_self) (hmark _)) rfl
  refine ⟨_, marked, predicate, hmarked, List.mem_cons_self, rfl,
    List.cons_ne_nil _ _, ?_⟩
  exact wellFormed_of_reached hmarked List.mem_cons_self
    (Node.mem_preorder_of_mem_children (by simp [marked]) predicate.mem_preorder_self)

end Session

end QueryPlan
