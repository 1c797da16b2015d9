import QueryPlan.Node.Build
import QueryPlan.Proofs.Attempt
import QueryPlan.Proofs.Node.Parts

/-!
# Sessions

A session is what a caller has at one moment: the plans it holds and the first
handle that was not given out yet.  The caller knows every part of the plans it
holds.

`Leads` is the logic of actions on sessions.  Sessions and states of the caller
go together by a relation; an action leads on when, from every such pair, it
ends in one, in a session that still knows everything, whether the action
succeeds or fails.
-/

namespace QueryPlan

variable [ForeignTypes]

structure Session where
  next : Handle
  held : List Node

namespace Session

/-- Whether a node is a part of a plan that is held. -/
def Knows (session : Session) (node : Node) : Prop :=
  ∃ root ∈ session.held, node ∈ root.preorder

/-- Whether everything known before is still known. -/
def Extends (later session : Session) : Prop :=
  ∀ node, session.Knows node → later.Knows node

theorem knows_of_mem_held {session : Session} {node : Node}
    (hnode : node ∈ session.held) : session.Knows node :=
  ⟨node, hnode, node.mem_preorder_self⟩

theorem Knows.part {session : Session} {part node : Node}
    (hnode : session.Knows node) (hpart : part ∈ node.preorder) :
    session.Knows part := by
  obtain ⟨root, hroot, hnode⟩ := hnode
  exact ⟨root, hroot, Node.mem_preorder_trans hpart hnode⟩

theorem Knows.child {session : Session} {child node : Node}
    (hnode : session.Knows node) (hchild : child ∈ node.children) :
    session.Knows child :=
  hnode.part (Node.mem_preorder_of_mem_children hchild child.mem_preorder_self)

theorem Extends.refl (session : Session) : session.Extends session :=
  fun _ hnode => hnode

theorem Extends.trans {session middle later : Session}
    (hlater : later.Extends middle) (hmiddle : middle.Extends session) :
    later.Extends session :=
  fun node hnode => hlater node (hmiddle node hnode)

/-- A session that holds one more plan knows what was known before, that plan
and its parts. -/
theorem knows_cons_iff (next next' : Handle) {held : List Node} {node part : Node} :
    Knows ⟨next, node :: held⟩ part ↔
      part ∈ node.preorder ∨ Knows ⟨next', held⟩ part := by
  simp [Knows]

theorem extends_cons (next : Handle) (session : Session) (node : Node) :
    Extends ⟨next, node :: session.held⟩ session :=
  fun _ hpart => (knows_cons_iff next session.next).mpr (.inr hpart)

end Session

/-! ## The logic of actions -/

/-- From every state that goes with the session, the action ends in a state
that goes with a later session, in which `post` holds of the answer. -/
def Leads {τ α : Type} (goes : τ → Session → Prop) (session : Session)
    (action : Attempt τ α) (post : Except NodeError α → Session → Prop) : Prop :=
  ∀ state, goes state session →
    ∃ later : Session, later.Extends session ∧
      goes (final (action state)) later ∧ post (answer (action state)) later

namespace Leads

variable {τ σ α β : Type} {goes : τ → Session → Prop} {session : Session}

theorem pure {value : α} {post : Except NodeError α → Session → Prop}
    (hpost : post (.ok value) session) :
    Leads goes session (Pure.pure value : Attempt τ α) post :=
  fun _ hstate => ⟨session, .refl session, hstate, hpost⟩

theorem throw {fault : NodeError} {post : Except NodeError α → Session → Prop}
    (hpost : post (.error fault) session) :
    Leads goes session (MonadExcept.throw fault : Attempt τ α) post :=
  fun _ hstate => ⟨session, .refl session, hstate, hpost⟩

theorem ofExcept {check : Except NodeError α} :
    Leads goes session (Attempt.ofExcept check)
      fun result later => result = check ∧ later = session := by
  cases check with
  | ok value => exact pure ⟨rfl, rfl⟩
  | error fault => exact throw ⟨rfl, rfl⟩

/-- What goes with the session may be used of it. -/
theorem goesWith {action : Attempt τ α}
    {post : Except NodeError α → Session → Prop}
    (haction : ∀ state, goes state session → Leads goes session action post) :
    Leads goes session action post :=
  fun state hstate => haction state hstate state hstate

theorem mono {action : Attempt τ α}
    {post post' : Except NodeError α → Session → Prop}
    (haction : Leads goes session action post)
    (hpost : ∀ (result : Except NodeError α) (later : Session),
      later.Extends session → post result later → post' result later) :
    Leads goes session action post' := by
  intro state hstate
  obtain ⟨later, hlater, hfinal, hanswer⟩ := haction state hstate
  exact ⟨later, hlater, hfinal, hpost _ later hlater hanswer⟩

theorem bind {action : Attempt τ α} {rest : α → Attempt τ β}
    {post : Except NodeError α → Session → Prop}
    {post' : Except NodeError β → Session → Prop}
    (haction : Leads goes session action post)
    (hrest : ∀ (value : α) (later : Session), later.Extends session →
      post (.ok value) later → Leads goes later (rest value) post')
    (hfault : ∀ (fault : NodeError) (later : Session), later.Extends session →
      post (.error fault) later → post' (.error fault) later) :
    Leads goes session (action >>= rest) post' := by
  intro state hstate
  obtain ⟨middle, hmiddle, hgoes, hanswer⟩ := haction state hstate
  change ∃ later : Session, later.Extends session ∧
    goes (final (EStateM.bind action rest state)) later ∧
      post' (answer (EStateM.bind action rest state)) later
  unfold EStateM.bind
  cases hrun : action state with
  | ok value state' =>
      rw [hrun] at hgoes hanswer
      obtain ⟨later, hlater, hfinal, hpost⟩ :=
        hrest value middle hmiddle hanswer state' hgoes
      exact ⟨later, hlater.trans hmiddle, hfinal, hpost⟩
  | error fault state' =>
      rw [hrun] at hgoes hanswer
      exact ⟨middle, hmiddle, hgoes, hfault fault middle hmiddle hanswer⟩

/-- An action leads where it leads with its answer read in some way. -/
theorem of_map {action : Attempt τ α} {read : α → β}
    {post : Except NodeError β → Session → Prop}
    (haction : Leads goes session (read <$> action) post) :
    Leads goes session action fun result later => post (result.map read) later := by
  intro state hstate
  obtain ⟨later, hlater, hfinal, hpost⟩ := haction state hstate
  change goes (final (EStateM.map read action state)) later at hfinal
  change post (answer (EStateM.map read action state)) later at hpost
  unfold EStateM.map at hfinal hpost
  refine ⟨later, hlater, ?_⟩
  cases hrun : action state with
  | ok value state' =>
      rw [hrun] at hfinal hpost
      exact ⟨hfinal, hpost⟩
  | error fault state' =>
      rw [hrun] at hfinal hpost
      exact ⟨hfinal, hpost⟩

theorem modifyOwn {goes : Store σ → Session → Prop} {change : σ → σ}
    (hgoes : ∀ next own, goes ⟨next, own⟩ session →
      goes ⟨next, change own⟩ session) :
    Leads goes session (Work.modifyOwn change)
      fun result later => result = .ok ⟨⟩ ∧ later = session :=
  fun state hstate =>
    ⟨session, .refl session, hgoes state.next state.own hstate, rfl, rfl⟩

theorem ofBuild {goes : Store σ → Session → Prop} {build : Build α}
    {post : Except NodeError α → Session → Prop}
    (hbuild : ∀ own, Leads (fun next later => goes ⟨next, own⟩ later) session
      build post) :
    Leads goes session (Work.ofBuild build) post := by
  intro state hstate
  obtain ⟨later, hlater, hfinal, hanswer⟩ := hbuild state.own state.next hstate
  unfold Work.ofBuild
  cases hrun : build state.next with
  | ok value next =>
      rw [hrun] at hfinal hanswer
      exact ⟨later, hlater, hfinal, hanswer⟩
  | error fault next =>
      rw [hrun] at hfinal hanswer
      exact ⟨later, hlater, hfinal, hanswer⟩

end Leads

end QueryPlan
