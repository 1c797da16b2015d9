import QueryPlan.Proofs.Rewrite.NormalRewriting

/-!
# What a rewriter computes

If the rules of a rewriter compute steps, then one pass and all passes of the
rewriter compute those of normal forms.  The short cuts that are taken by handles
are covered case by case: a kept node would have been rebuilt as it was, and a
pass that answers the node it was given would be repeated without effect.
-/

namespace QueryPlan

variable [ForeignTypes]

open Session

variable {base session : Session}

theorem leads_compose_normal {label : Label} {old : Node} {children : List Node}
    (hchildren : ∀ child ∈ children, session.Knows child)
    (hcategories : label.checkCategories 0 children = .ok ())
    (hold : session.Knows old) :
    Leads base.ReachedFrom session (Node.compose label old.annotations children)
      (AnswersNormal (NormalRewriting.rebuild label.normal
        old.annotations.normal (children.map Node.normal))) := by
  intro next hgoes
  obtain ⟨later, hlater, hfinal, hknown⟩ :=
    leads_of_call (.compose label children old hchildren hcategories hold) next hgoes
  refine ⟨later, hlater, hfinal, hknown, ?_⟩
  unfold NormalRewriting.rebuild
  rw [Label.checkParts_normal, Node.compose_eq]
  cases hparts : label.checkParts children with
  | error fault => rfl
  | ok =>
      have hnew : (label.node next old.annotations children).normal =
          label.normal.node 0 old.annotations.normal (children.map Node.normal) := by
        simp [Node.normal, Node.normalAll_eq_map, Label.node, Function.comp_def]
      exact congrArg Except.ok hnew

theorem leads_update_normal {node : Node} {children : List Node}
    (hnode : session.Knows node) (hchildren : ∀ child ∈ children, session.Knows child)
    (hcategories : node.label.checkCategories 0 children = .ok ()) :
    Leads base.ReachedFrom session (node.update children)
      (AnswersNormal (NormalRewriting.rebuild node.label.normal
        node.annotations.normal (children.map Node.normal))) := by
  apply Leads.goesWith
  rintro next ⟨hreached, -, -⟩
  unfold Node.update
  split
  · rename_i hare
    obtain rfl := hreached.sound.eq_of_areAll hchildren
      (fun child hchild => hnode.child hchild) hare
    have hwell := hreached.sound.wellFormed node hnode
    refine Leads.pure ⟨by simpa [AnswersKnown] using hnode, ?_⟩
    rw [NormalRewriting.rebuild, Label.checkParts_normal, hwell.checkParts]
    exact congrArg Except.ok hwell.normal_eq
  · exact leads_compose_normal hchildren hcategories hnode

/-- The bind rule for normal forms.  What an answer shows is a known node, with which
the rest computes the next step; a fault shows itself. -/
theorem leads_bind_normal {τ α β : Type} {goes : τ → Session → Prop}
    {action : Attempt τ α} {rest : α → Attempt τ β} {first : Except NodeError Node}
    {next : Step} {read : α → Node} {shown : Except NodeError α → Except NodeError Node}
    {shown' : Except NodeError β → Except NodeError Node}
    (haction : Leads goes session action fun result later =>
      AnswersNormal first (shown result) later)
    (hread : ∀ value, shown (.ok value) = .ok (read value))
    (hfault : ∀ fault, shown (.error fault) = .error fault)
    (hfault' : ∀ fault, shown' (.error fault) = .error fault)
    (hrest : ∀ value later, later.Extends session → later.Knows (read value) →
      Leads goes later (rest value) fun result last =>
        AnswersNormal (next (read value).normal) (shown' result) last) :
    Leads goes session (action >>= rest) fun result later =>
      AnswersNormal (first >>= next) (shown' result) later := by
  refine Leads.bind haction ?_ ?_
  · intro value later hlater hanswer
    rw [hread] at hanswer
    obtain ⟨hknown, rfl⟩ := hanswer
    exact hrest value later hlater (hknown (read value) List.mem_cons_self)
  · intro fault later _ hanswer
    rw [hfault] at hanswer
    obtain ⟨-, rfl⟩ := hanswer
    rw [hfault']
    exact ⟨trivial, rfl⟩

/-! ## Visits -/

section Visits

variable {σ : Type} {goes : Store σ → Session → Prop}

/-- Visiting children, when each visit computes what is expected of the normal
form of the child. -/
theorem leads_visitFrom_normal {change : Node → Work σ Node} {expected : Step}
    (label : Label) {children : List Node}
    (hchildren : ∀ child ∈ children, ∀ session : Session, session.Knows child →
      Leads goes session (change child) (AnswersNormal (expected child.normal)))
    (place : Nat) {session : Session}
    (hknown : ∀ child ∈ children, session.Knows child) :
    Leads goes session (Node.visitFrom change label place children)
      (AnswersNormals (NormalRewriting.visitAll expected label.normal place
        (children.map Node.normal)) label place) := by
  induction children generalizing place session with
  | nil => exact Leads.pure ⟨⟨by simp, rfl⟩, rfl⟩
  | cons child rest ih =>
      simp only [Node.visitFrom, List.map_cons, NormalRewriting.visitAll]
      refine Leads.bind (hchildren child List.mem_cons_self session
        (hknown child List.mem_cons_self)) ?_ ?_
      · rintro changed later hlater ⟨hchanged, hnormal⟩
        have hcheck : changed.normal.expect label.normal.kind
            (label.normal.slotCategory place) =
              (changed.expect label.kind (label.slotCategory place)).map Node.normal := by
          rw [Label.kind_normal, Label.slotCategory_normal, Node.expect_normal]
        simp only [← hnormal, Except.map, bind, Except.bind, hcheck]
        refine Leads.bind Leads.ofExcept ?_ ?_
        · rintro expected _ - ⟨hexpect, rfl⟩
          rw [← hexpect]
          refine Leads.bind (ih
            (fun other hother => hchildren other (List.mem_cons_of_mem child hother))
            (place + 1) (fun other hother =>
              hlater other (hknown other (List.mem_cons_of_mem child hother)))) ?_ ?_
          · rintro visited last hlast ⟨hvisited, hnormals⟩
            rw [← hnormals]
            refine Leads.pure ⟨⟨?_, ?_⟩, rfl⟩
            · intro other hother
              rcases List.mem_cons.mp hother with rfl | hother
              · exact hlast other (hchanged other List.mem_cons_self)
              · exact hvisited.1 other hother
            · simp only [Label.checkCategories, ← hexpect, bind, Except.bind]
              exact hvisited.2
          · rintro fault last - ⟨-, hnormals⟩
            rw [← hnormals]
            exact ⟨trivial, rfl⟩
        · rintro fault _ - ⟨hexpect, rfl⟩
          rw [← hexpect]
          exact ⟨trivial, rfl⟩
      · rintro fault later hlater ⟨-, hnormal⟩
        rw [← hnormal]
        exact ⟨trivial, rfl⟩

theorem leads_visitChildren_normal {change : Node → Work σ Node} {expected : Step}
    {node : Node}
    (hchildren : ∀ child ∈ node.children, ∀ session : Session, session.Knows child →
      Leads (fun store => base.ReachedFrom store.next) session (change child)
        (AnswersNormal (expected child.normal)))
    {session : Session} (hnode : session.Knows node) :
    Leads (fun store => base.ReachedFrom store.next) session (node.visitChildren change)
      (AnswersNormal (NormalRewriting.visitChildren expected node.normal)) := by
  unfold Node.visitChildren NormalRewriting.visitChildren
  rw [Node.normal_label, Node.normal_annotations, Node.normal_children]
  refine Leads.bind (leads_visitFrom_normal node.label hchildren 0
    (fun child hchild => hnode.child hchild)) ?_ ?_
  · rintro children later hlater ⟨⟨hchildren, hcategories⟩, hnormals⟩
    rw [← hnormals]
    exact Leads.ofBuild fun own =>
      leads_update_normal (hlater node hnode) hchildren hcategories
  · rintro fault later - ⟨-, hnormals⟩
    rw [← hnormals]
    exact ⟨trivial, rfl⟩

theorem leads_transformDown_normal {op : Node → Work σ Outcome} {step : Step}
    (hop : ∀ (session : Session) (node : Node), session.Knows node →
      Leads (fun store => base.ReachedFrom store.next) session (op node)
        fun result later => AnswersNormal (step node.normal) (result.map (·.node)) later)
    (depth : Nat) {node : Node} {session : Session} (hnode : session.Knows node) :
    Leads (fun store => base.ReachedFrom store.next) session (node.transformDown op depth)
      (AnswersNormal (NormalRewriting.transformDown step depth node.normal)) := by
  induction depth generalizing node session with
  | zero => exact Leads.throw ⟨trivial, rfl⟩
  | succ depth ih =>
      refine leads_bind_normal (hop session node hnode) (fun _ => rfl) (fun _ => rfl)
        (fun _ => rfl) ?_
      exact fun outcome later _ houtcome =>
        leads_visitChildren_normal (fun child _ session hknown => ih hknown) houtcome

end Visits

/-! ## Rules -/

variable {rules : List Rule} {steps : List Step}
  (hsteps : List.Forall₂ (Rule.Computes base) rules steps)
include hsteps

theorem leads_applyRules_normal {node : Node} (hnode : session.Knows node) :
    Leads (withJournal base.ReachedFrom) session (Rewriter.applyRules rules node)
      (AnswersNormal (NormalRewriting.applySteps steps node.normal)) := by
  induction hsteps generalizing node session with
  | nil => exact Leads.pure ⟨by simpa [AnswersKnown] using hnode, rfl⟩
  | cons hrule hrest ih =>
      refine leads_bind_normal (Leads.ofBuild fun own => hrule session node hnode)
        (fun _ => rfl) (fun _ => rfl) (fun _ => rfl) ?_
      intro outcome later _ houtcome
      cases outcome with
      | unchanged kept => exact ih houtcome
      | changed new => exact leads_report_bind _ (ih houtcome)

theorem leads_rewriteNode_normal {node : Node} (hnode : session.Knows node) :
    Leads (withJournal base.ReachedFrom) session (Rewriter.rewriteNode rules node)
      (AnswersNormal (NormalRewriting.rewriteNode steps node.normal)) := by
  induction node using Node.inductionOn generalizing session with
  | step node ih =>
      rw [Rewriter.rewriteNode_eq, NormalRewriting.rewriteNode_eq_visitChildren]
      refine leads_bind_normal (leads_visitChildren_normal
        (fun child hchild session hknown => ih child hchild hknown) hnode)
        (fun _ => rfl) (fun _ => rfl) (fun _ => rfl) ?_
      exact fun rebuilt later _ hrebuilt => leads_applyRules_normal hsteps hrebuilt

/-! ## Passes -/

omit hsteps in
@[simp] theorem Rewriter.node_outcome (given result : Node) :
    (Rewriter.outcome given result).node = result := by
  unfold Rewriter.outcome
  split <;> rfl

omit hsteps in
/-- A pass that does not change the plan answers the node it was given. -/
theorem Rewriter.node_is_of_outcome_eq_unchanged {given result node : Node}
    (houtcome : Rewriter.outcome given result = .unchanged node) :
    node.is given = true := by
  unfold Rewriter.outcome at houtcome
  split at houtcome <;> simp_all

theorem leads_rewrite_normal (rewriter : Rewriter) (hrules : rewriter.rules = rules)
    {node : Node} (hnode : session.Knows node) :
    Leads (withJournal base.ReachedFrom) session (rewriter.rewrite node)
      fun result later =>
        AnswersNormal (NormalRewriting.rewriteNode steps node.normal)
          (result.map (·.node)) later ∧
        ∀ kept, result = .ok (.unchanged kept) → kept.is node = true := by
  unfold Rewriter.rewrite
  rw [hrules]
  refine Leads.bind (leads_rewriteNode_normal hsteps hnode) ?_ ?_
  · rintro result later - hresult
    refine Leads.pure ⟨?_, ?_⟩
    · simpa [Except.map] using hresult
    · intro kept hkept
      exact Rewriter.node_is_of_outcome_eq_unchanged (Except.ok.inj hkept)
  · rintro fault later - hfault
    exact ⟨hfault, by simp⟩

theorem leads_passes_normal (rewriter : Rewriter) (hrules : rewriter.rules = rules)
    (remaining pass : Nat) {node : Node} (hnode : session.Knows node) :
    Leads (withJournal base.ReachedFrom) session (rewriter.passes remaining pass node)
      fun result later =>
        AnswersNormal (NormalRewriting.passes steps remaining node.normal)
          (result.map (·.1)) later := by
  induction remaining generalizing pass node session with
  | zero => exact Leads.pure ⟨by simpa [AnswersKnown, Except.map] using hnode, rfl⟩
  | succ remaining ih =>
      unfold Rewriter.passes
      refine Leads.bind (leads_rewrite_normal hsteps rewriter hrules hnode) ?_ ?_
      · rintro outcome later hlater ⟨⟨hknown, hnormal⟩, hkept⟩
        have hnext := hknown outcome.node List.mem_cons_self
        rw [NormalRewriting.passes, ← hnormal]
        cases outcome with
        | changed next => exact ih (pass + 1) hnext
        | unchanged next =>
            refine leads_report_bind _ (Leads.goesWith ?_)
            rintro store ⟨hreached, -, -⟩
            -- The answer is the given node itself, so no later pass changes it.
            obtain rfl : next = node :=
              hreached.sound.coherent next node hnext (hlater node hnode)
                (by simpa [Node.is] using hkept next rfl)
            have hfixed := NormalRewriting.passes_of_fixed hnormal.symm remaining
            refine Leads.pure ⟨?_, hfixed.symm⟩
            simpa [AnswersKnown, Except.map] using hlater next hnode
      · rintro fault later - ⟨⟨-, hnormal⟩, -⟩
        rw [NormalRewriting.passes, ← hnormal]
        exact ⟨trivial, rfl⟩

theorem leads_rewriteToFixpoint_normal (rewriter : Rewriter)
    (hrules : rewriter.rules = rules) {node : Node} (hnode : session.Knows node) :
    Leads (withJournal base.ReachedFrom) session (rewriter.rewriteToFixpoint node)
      fun result later =>
        AnswersNormal (NormalRewriting.passes steps rewriter.maxPasses node.normal)
          (result.map (·.node)) later := by
  unfold Rewriter.rewriteToFixpoint
  refine Leads.bind (leads_passes_normal hsteps rewriter hrules _ 1 hnode) ?_ ?_
  · rintro ⟨last, reached⟩ later - hlast
    have hanswer : AnswersNormal (NormalRewriting.passes steps rewriter.maxPasses
        node.normal) (.ok (Rewriter.outcome node last).node) later := by
      rw [Rewriter.node_outcome]
      exact hlast
    cases reached with
    | true => exact Leads.pure hanswer
    | false => exact leads_report_bind _ (Leads.pure hanswer)
  · rintro fault later - hfault
    exact hfault

end QueryPlan
