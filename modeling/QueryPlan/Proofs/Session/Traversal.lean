import QueryPlan.Proofs.Node.Rebuilding
import QueryPlan.Proofs.Session.Soundness

/-!
# Traversals of sessions

Visits, transformations and rewriting call operations of the caller in between.
The caller says in which situations it lets its operations be called, by the
relation `goes` between states and sessions.  If the operations and the
rebuilding of nodes lead from such situations to such situations, and answer
nodes that are known there, then so do the traversals.
-/

namespace QueryPlan

variable [ForeignTypes]

namespace Session

/-- The nodes in an answer are known; a failure answers none. -/
def AnswersKnown {α : Type} (nodes : α → List Node) :
    Except NodeError α → Session → Prop
  | .ok value, later => ∀ node ∈ nodes value, later.Knows node
  | .error _, _ => True

/-- An operation of the caller, called on a known node, leads on to known
nodes. -/
def Serves {τ α : Type} (goes : τ → Session → Prop) (nodes : α → List Node)
    (op : Node → Attempt τ α) : Prop :=
  ∀ (session : Session) (node : Node), session.Knows node →
    Leads goes session (op node) (AnswersKnown nodes)

/-- Rebuilding a known node over known children leads on to a known node. -/
def Rebuilds (goes : Handle → Session → Prop) : Prop :=
  ∀ (session : Session) (node : Node) (children : List Node), session.Knows node →
    (∀ child ∈ children, session.Knows child) →
    node.label.checkCategories 0 children = .ok () →
    Leads goes session (node.update children) (AnswersKnown ([·]))

end Session

open Session

section Work

variable {σ : Type} {goes : Store σ → Session → Prop}

/-- Visited children are known and of the categories that their places ask
for. -/
def Session.AnswersFitting (label : Label) (place : Nat) :
    Except NodeError (List Node) → Session → Prop
  | .ok children, later => (∀ child ∈ children, later.Knows child) ∧
      label.checkCategories place children = .ok ()
  | .error _, _ => True

/-- Visited children fit their places, and each is related to the child that it was made
of. -/
def Session.AnswersRelated (related : Node → Node → Prop) (label : Label) (place : Nat)
    (children : List Node) (result : Except NodeError (List Node)) (later : Session) : Prop :=
  AnswersFitting label place result later ∧
    ∀ news, result = .ok news → List.Forall₂ related children news

theorem leads_visitFrom_related {change : Node → Work σ Node}
    {related : Node → Node → Prop} (label : Label) {children : List Node}
    (hchange : ∀ child ∈ children, ∀ session : Session, session.Knows child →
      Leads goes session (change child) fun result later =>
        AnswersKnown ([·]) result later ∧ ∀ new, result = .ok new → related child new)
    (place : Nat) {session : Session}
    (hknown : ∀ child ∈ children, session.Knows child) :
    Leads goes session (Node.visitFrom change label place children)
      (AnswersRelated related label place children) := by
  induction children generalizing place session with
  | nil =>
      refine Leads.pure ⟨⟨by simp, rfl⟩, ?_⟩
      intro news hnews
      cases hnews
      exact .nil
  | cons child rest ih =>
      unfold Node.visitFrom
      refine Leads.bind (hchange child List.mem_cons_self session
        (hknown child List.mem_cons_self)) ?_ (fun _ _ _ _ => ⟨trivial, by simp⟩)
      rintro changed later hlater ⟨hchanged, hrelated⟩
      refine Leads.bind Leads.ofExcept ?_ (fun _ _ _ _ => ⟨trivial, by simp⟩)
      rintro expected _ - ⟨hexpect, rfl⟩
      refine Leads.bind (ih
        (fun other hother => hchange other (List.mem_cons_of_mem child hother))
        (place + 1) (fun other hother =>
          hlater other (hknown other (List.mem_cons_of_mem child hother))))
        ?_ (fun _ _ _ _ => ⟨trivial, by simp⟩)
      rintro visited last hlast ⟨hvisited, hrest⟩
      refine Leads.pure ⟨⟨?_, ?_⟩, ?_⟩
      · intro other hother
        rcases List.mem_cons.mp hother with rfl | hother
        · exact hlast other (hchanged other List.mem_cons_self)
        · exact hvisited.1 other hother
      · simp only [Label.checkCategories, ← hexpect, bind, Except.bind]
        exact hvisited.2
      · intro news hnews
        obtain rfl := Except.ok.inj hnews
        exact .cons (hrelated changed rfl) (hrest visited rfl)

theorem leads_visitFrom {change : Node → Work σ Node} (label : Label)
    {children : List Node}
    (hchange : ∀ child ∈ children, ∀ session : Session, session.Knows child →
      Leads goes session (change child) (AnswersKnown ([·])))
    (place : Nat) {session : Session}
    (hknown : ∀ child ∈ children, session.Knows child) :
    Leads goes session (Node.visitFrom change label place children)
      (AnswersFitting label place) := by
  have hrelated : Leads goes session (Node.visitFrom change label place children)
      (AnswersRelated (fun _ _ => True) label place children) :=
    leads_visitFrom_related label (fun child hchild session hchild' =>
      (hchange child hchild session hchild').mono
        fun _ _ _ hanswer => ⟨hanswer, fun _ _ => trivial⟩) place hknown
  exact hrelated.mono fun _ _ _ hanswer => hanswer.1

variable (hrebuilds : ∀ own, Rebuilds fun next session => goes ⟨next, own⟩ session)
include hrebuilds

theorem leads_visitChildren {change : Node → Work σ Node} {node : Node}
    (hchange : ∀ child ∈ node.children, ∀ session : Session, session.Knows child →
      Leads goes session (change child) (AnswersKnown ([·])))
    {session : Session} (hknown : session.Knows node) :
    Leads goes session (node.visitChildren change) (AnswersKnown ([·])) := by
  unfold Node.visitChildren
  refine Leads.bind (leads_visitFrom node.label hchange 0
    (fun child hchild => hknown.child hchild)) ?_ (fun _ _ _ _ => trivial)
  intro children later hlater hchildren
  exact Leads.ofBuild fun own => hrebuilds own later node children
    (hlater node hknown) hchildren.1 hchildren.2

theorem leads_transformUp {op : Node → Work σ Outcome}
    (hop : Serves goes (fun outcome => [outcome.node]) op) {node : Node}
    {session : Session} (hknown : session.Knows node) :
    Leads goes session (node.transformUp op) (AnswersKnown ([·])) := by
  induction node using Node.inductionOn generalizing session with
  | step node ih =>
      rw [Node.transformUp_eq]
      refine Leads.bind (leads_visitChildren hrebuilds
        (fun child hchild session hknown => ih child hchild hknown) hknown) ?_
        (fun _ _ _ _ => trivial)
      intro rebuilt later hlater hrebuilt
      refine Leads.bind (hop later rebuilt (hrebuilt rebuilt List.mem_cons_self))
        ?_ (fun _ _ _ _ => trivial)
      intro outcome last hlast houtcome
      exact Leads.pure houtcome

theorem leads_transformDown {op : Node → Work σ Outcome}
    (hop : Serves goes (fun outcome => [outcome.node]) op) (depth : Nat)
    {node : Node} {session : Session} (hknown : session.Knows node) :
    Leads goes session (node.transformDown op depth) (AnswersKnown ([·])) := by
  induction depth generalizing node session with
  | zero => exact Leads.throw trivial
  | succ depth ih =>
      unfold Node.transformDown
      refine Leads.bind (hop session node hknown) ?_ (fun _ _ _ _ => trivial)
      intro outcome later hlater houtcome
      exact leads_visitChildren hrebuilds
        (fun child hchild session hknown => ih hknown)
        (houtcome outcome.node List.mem_cons_self)

end Work

/-! ## Rewriting -/

section Rewriting

variable {goes : Handle → Session → Prop}

/-- The journal has no part in what a rule does. -/
abbrev withJournal (goes : Handle → Session → Prop) :
    Store Journal → Session → Prop :=
  fun store session => goes store.next session

variable {rules : List Rule}
  (hrules : ∀ rule ∈ rules, Serves goes (fun outcome => [outcome.node]) rule.apply)

theorem leads_report_bind {α : Type} (record : Record) {session : Session}
    {rest : PUnit → Work Journal α} {post : Except NodeError α → Session → Prop}
    (hrest : Leads (withJournal goes) session (rest ⟨⟩) post) :
    Leads (withJournal goes) session (Rewriter.report record >>= rest) post := by
  refine Leads.bind (Leads.modifyOwn fun _ _ hgoes => hgoes) ?_ ?_
  · rintro ⟨⟩ _ - ⟨-, rfl⟩
    exact hrest
  · rintro fault _ - ⟨hfault, -⟩
    cases hfault

include hrules

theorem leads_applyRules {node : Node} {session : Session}
    (hknown : session.Knows node) :
    Leads (withJournal goes) session (Rewriter.applyRules rules node)
      (AnswersKnown ([·])) := by
  induction rules generalizing node session with
  | nil => exact Leads.pure (by simpa [AnswersKnown] using hknown)
  | cons rule rest ih =>
      have hrest := fun other hother => hrules other (List.mem_cons_of_mem rule hother)
      unfold Rewriter.applyRules
      refine Leads.bind (Leads.ofBuild fun own =>
        hrules rule List.mem_cons_self session node hknown) ?_
        (fun _ _ _ _ => trivial)
      intro outcome later hlater houtcome
      cases outcome with
      | unchanged kept => exact ih hrest (hlater node hknown)
      | changed new =>
          exact leads_report_bind _ (ih hrest (houtcome new List.mem_cons_self))

variable (hrebuilds : Rebuilds goes)
include hrebuilds

theorem leads_rewriteNode {node : Node} {session : Session}
    (hknown : session.Knows node) :
    Leads (withJournal goes) session (Rewriter.rewriteNode rules node)
      (AnswersKnown ([·])) := by
  induction node using Node.inductionOn generalizing session with
  | step node ih =>
      rw [Rewriter.rewriteNode_eq]
      refine Leads.bind (leads_visitChildren (fun _ => hrebuilds)
        (fun child hchild session hknown => ih child hchild hknown) hknown) ?_
        (fun _ _ _ _ => trivial)
      intro rebuilt later hlater hrebuilt
      exact leads_applyRules hrules (hrebuilt rebuilt List.mem_cons_self)

omit hrules in
theorem leads_rewrite {rewriter : Rewriter}
    (hrules : ∀ rule ∈ rewriter.rules,
      Serves goes (fun outcome => [outcome.node]) rule.apply)
    {node : Node} {session : Session} (hknown : session.Knows node) :
    Leads (withJournal goes) session (rewriter.rewrite node)
      (AnswersKnown fun outcome => [outcome.node]) := by
  unfold Rewriter.rewrite
  refine Leads.bind (leads_rewriteNode hrules hrebuilds hknown) ?_
    (fun _ _ _ _ => trivial)
  intro result later hlater hresult
  apply Leads.pure
  unfold Rewriter.outcome
  split <;> exact hresult

omit hrules in
theorem leads_passes {rewriter : Rewriter}
    (hrules : ∀ rule ∈ rewriter.rules,
      Serves goes (fun outcome => [outcome.node]) rule.apply)
    (remaining pass : Nat) {node : Node} {session : Session}
    (hknown : session.Knows node) :
    Leads (withJournal goes) session (rewriter.passes remaining pass node)
      (AnswersKnown fun last => [last.1]) := by
  induction remaining generalizing pass node session with
  | zero => exact Leads.pure (by simpa [AnswersKnown] using hknown)
  | succ remaining ih =>
      unfold Rewriter.passes
      refine Leads.bind (leads_rewrite hrebuilds hrules hknown) ?_
        (fun _ _ _ _ => trivial)
      intro outcome later hlater houtcome
      cases outcome with
      | changed next => exact ih (pass + 1) (houtcome next List.mem_cons_self)
      | unchanged next =>
          refine leads_report_bind _ (Leads.pure ?_)
          simpa [AnswersKnown, Outcome.node] using houtcome

omit hrules in
theorem leads_rewriteToFixpoint {rewriter : Rewriter}
    (hrules : ∀ rule ∈ rewriter.rules,
      Serves goes (fun outcome => [outcome.node]) rule.apply)
    {node : Node} {session : Session} (hknown : session.Knows node) :
    Leads (withJournal goes) session (rewriter.rewriteToFixpoint node)
      (AnswersKnown fun outcome => [outcome.node]) := by
  unfold Rewriter.rewriteToFixpoint
  refine Leads.bind (leads_passes hrebuilds hrules _ 1 hknown) ?_
    (fun _ _ _ _ => trivial)
  rintro ⟨last, reached⟩ later hlater hlast
  have hanswer : AnswersKnown (fun outcome : Outcome => [outcome.node])
      (.ok (Rewriter.outcome node last)) later := by
    unfold Rewriter.outcome
    split <;> exact hlast
  cases reached with
  | true => exact Leads.pure hanswer
  | false =>
      exact leads_report_bind _ (Leads.pure hanswer)

end Rewriting

end QueryPlan
