import QueryPlan.Proofs.Annotations.Hints
import QueryPlan.Proofs.Rewrite.PassLoop
import QueryPlan.Proofs.Rewrite.RelabellingRules

/-!
# One pass normalises

Substitutions, and forwarding over one table, leave nothing to be done after one pass.
Each label of the result was made by all the rules, and what one of them makes is a
constant or a call of a function at the end of a chain, which all of them leave.  A
second pass meets no node that a rule changes, so it answers the very plan it was
given, and passes to the fixpoint end there.
-/

namespace QueryPlan

/-- A substitution, or the forwarding over a table that is given elsewhere. -/
inductive Normaliser where
  | substitution (bindings : Bindings)
  | forwarding

def Normaliser.relabel (table : ForwardingTable) : Normaliser → Relabelling
  | substitution bindings => bindings.relabel
  | forwarding => table.relabel

/-- A label that no normaliser over the table changes. -/
def Label.Settled (table : ForwardingTable) : Label → Prop
  | .parameter .. => False
  | .call signature _ => table.get? signature = none
  | _ => True

/-! ## What the relabellings leave -/

namespace Normaliser

variable {table : ForwardingTable} {normaliser : Normaliser} {normalisers : List Normaliser}
  {label new : Label}

theorem relabel_of_settled (normaliser : Normaliser) (hlabel : label.Settled table) :
    normaliser.relabel table label = .ok label := by
  cases normaliser with
  | substitution bindings => cases label <;> first | rfl | exact hlabel.elim
  | forwarding =>
      cases label with
      | call signature type =>
          have hnone := (table.resolve?_eq_none_iff signature).mpr hlabel
          simp only [relabel, ForwardingTable.relabel, hnone, Option.getD_none]
      | _ => rfl

theorem eq_or_settled (htable : table.Reached)
    (hnew : normaliser.relabel table label = .ok new) :
    new = label ∨ new.Settled table := by
  cases normaliser with
  | substitution bindings =>
      rcases Bindings.kept_or_bound hnew with ⟨rfl, -⟩ | ⟨name, type, value, -, rfl⟩
      · exact .inl rfl
      · exact .inr trivial
  | forwarding =>
      rcases ForwardingTable.kept_or_forwarded hnew with
        ⟨rfl, -⟩ | ⟨signature, type, target, -, hresolve, rfl⟩
      · exact .inl rfl
      · exact .inr (htable.get?_of_resolve? hresolve)

/-- After all the normalisers, either none of them changed the label or there is
nothing left in it for any of them. -/
theorem kept_or_settled (htable : table.Reached)
    (hnew : Relabelling.compose (normalisers.map (relabel table)) label = .ok new) :
    (new = label ∧ ∀ normaliser ∈ normalisers, normaliser.relabel table label = .ok label) ∨
      new.Settled table := by
  induction normalisers generalizing label with
  | nil => exact .inl ⟨(Except.ok.inj hnew).symm, by simp⟩
  | cons normaliser rest ih =>
      obtain ⟨middle, hmiddle, hlast⟩ := bind_eq_ok_iff.mp hnew
      rcases eq_or_settled htable hmiddle with rfl | hsettled
      · rcases ih hlast with ⟨rfl, hkept⟩ | hsettled
        · exact .inl ⟨rfl, List.forall_mem_cons.mpr ⟨hmiddle, hkept⟩⟩
        · exact .inr hsettled
      · have hkept : Relabelling.compose (rest.map (relabel table)) middle = .ok middle := by
          apply Relabelling.compose_eq_of_kept
          simpa using fun normaliser _ => relabel_of_settled normaliser hsettled
        obtain rfl := Except.ok.inj (hkept.symm.trans hlast)
        exact .inr hsettled

theorem kept_of_compose_eq_ok (htable : table.Reached)
    (hnew : Relabelling.compose (normalisers.map (relabel table)) label = .ok new)
    (hnormaliser : normaliser ∈ normalisers) : normaliser.relabel table new = .ok new := by
  rcases kept_or_settled htable hnew with ⟨rfl, hkept⟩ | hsettled
  · exact hkept normaliser hnormaliser
  · exact relabel_of_settled normaliser hsettled

end Normaliser

section

variable [ForeignTypes]

open Session

def Normaliser.rule (table : ForwardingTable) : Normaliser → Rule
  | substitution bindings => bindings.rule
  | forwarding => table.rule

/-- A rule leaves a node where it is. -/
def Rule.Leaves (rule : Rule) (node : Node) : Prop :=
  rule.apply node = pure (.unchanged node)

variable {table : ForwardingTable}

/-! ## What the rules leave -/

theorem Bindings.leaves_iff {bindings : Bindings} {node : Node} :
    bindings.rule.Leaves node ↔
      ∀ name type, node.label = .parameter name type → bindings.get? name = none := by
  constructor
  · intro hleaves name type hlabel
    have hrun := congrFun hleaves 0
    simp only [rule, apply, hlabel] at hrun
    cases hget : bindings.get? name with
    | none => rfl
    | some value =>
        simp only [hget] at hrun
        split at hrun <;> cases hrun
  · intro hunbound
    unfold Rule.Leaves
    cases hlabel : node.label with
    | parameter name type => simp only [rule, apply, hlabel, hunbound name type hlabel]
    | _ => simp only [rule, apply, hlabel]

theorem ForwardingTable.leaves_iff {node : Node} :
    table.rule.Leaves node ↔
      ∀ signature type, node.label = .call signature type →
        table.get? signature = none := by
  simp only [← table.resolve?_eq_none_iff]
  constructor
  · intro hleaves signature type hlabel
    have hrun := congrFun hleaves 0
    simp only [rule, apply, hlabel] at hrun
    cases hresolve : table.resolve? signature with
    | none => rfl
    | some target =>
        simp only [hresolve] at hrun
        change EStateM.bind (node.withSignature target) _ 0 = _ at hrun
        unfold EStateM.bind at hrun
        split at hrun <;> cases hrun
  · intro hended
    unfold Rule.Leaves
    cases hlabel : node.label with
    | call signature type => simp only [rule, apply, hlabel, hended signature type hlabel]
    | _ => simp only [rule, apply, hlabel]

namespace Normaliser

variable {normaliser : Normaliser} {normalisers : List Normaliser} {label new : Label}

theorem relabels (base : Session) (htable : table.Reached) (normaliser : Normaliser) :
    (normaliser.rule table).Relabels base (normaliser.relabel table) := by
  cases normaliser with
  | substitution bindings => exact bindings.relabels base
  | forwarding => exact ForwardingTable.relabels base htable

/-- A rule leaves a node whose label its relabelling keeps. -/
theorem leaves_of_kept (htable : table.Reached) {node : Node}
    (hkept : normaliser.relabel table node.normal.label = .ok node.normal.label) :
    (normaliser.rule table).Leaves node := by
  rw [Node.normal_label] at hkept
  cases normaliser with
  | substitution bindings =>
      apply Bindings.leaves_iff.mpr
      intro name type hlabel
      rw [hlabel] at hkept
      have hparameter : bindings.relabel (.parameter name type) =
          .ok (.parameter name type) := hkept
      rcases Bindings.kept_or_bound hparameter with ⟨-, hunbound⟩ | ⟨_, _, value, -, hnew⟩
      · exact hunbound name type rfl
      · cases hnew
  | forwarding =>
      apply ForwardingTable.leaves_iff.mpr
      intro signature type hlabel
      rw [hlabel] at hkept
      have hcall : table.relabel (.call signature type) = .ok (.call signature type) := hkept
      rcases ForwardingTable.kept_or_forwarded hcall with
        ⟨-, hended⟩ | ⟨_, _, target, ⟨⟩, hresolve, ⟨⟩⟩
      · exact (table.resolve?_eq_none_iff signature).mp (hended signature type rfl)
      · exact htable.get?_of_resolve? hresolve

end Normaliser

/-! ## A pass over a plan that all rules leave -/

/-- A visit goes past the children that stay. -/
theorem Node.visitFrom_append_of_pure {σ : Type} {change : Node → Work σ Node} (label : Label)
    (place : Nat) {children : List Node}
    (hchange : ∀ child ∈ children, change child = pure child)
    (hcategories : label.checkCategories place children = .ok ()) (others : List Node) :
    visitFrom change label place (children ++ others) =
      (children ++ ·) <$> visitFrom change label (place + children.length) others := by
  induction children generalizing place with
  | nil => simp
  | cons child rest ih =>
      obtain ⟨hchild, hrest⟩ := List.forall_mem_cons.mp hchange
      obtain ⟨hcategory, hcategories⟩ :=
        (label.checkCategories_cons_eq_ok_iff place child rest).mp hcategories
      have hexpect : child.expect label.kind (label.slotCategory place) = .ok child :=
        expect_eq_ok_iff.mpr ⟨hcategory, rfl⟩
      have hplace : place + (child :: rest).length = place + 1 + rest.length := by
        rw [List.length_cons, Nat.add_assoc, Nat.add_comm 1]
      rw [List.cons_append, visitFrom, hchild, pure_bind, hexpect,
        ih (place + 1) hrest hcategories, hplace]
      simp [Attempt.ofExcept]

theorem Node.visitFrom_of_pure {σ : Type} {change : Node → Work σ Node} (label : Label)
    (place : Nat) {children : List Node}
    (hchange : ∀ child ∈ children, change child = pure child)
    (hcategories : label.checkCategories place children = .ok ()) :
    visitFrom change label place children = pure children := by
  have hvisit := visitFrom_append_of_pure label place hchange hcategories []
  rw [List.append_nil, visitFrom, map_pure, List.append_nil] at hvisit
  exact hvisit

/-- A node of which every child stays is kept. -/
theorem Node.WellFormed.visitChildren_of_pure {σ : Type} {change : Node → Work σ Node}
    {node : Node} (hnode : node.WellFormed)
    (hchange : ∀ child ∈ node.children, change child = pure child) :
    node.visitChildren change = pure node := by
  rw [Node.visitChildren, Node.visitFrom_of_pure node.label 0 hchange hnode.checkCategories,
    pure_bind, Node.update, if_pos (Node.areAll_self node.children)]
  rfl

section Leaves

variable {rules : List Rule} {node : Node}

theorem Rewriter.applyRules_of_leaves (hleaves : ∀ rule ∈ rules, rule.Leaves node) :
    applyRules rules node = pure node := by
  induction rules with
  | nil => rfl
  | cons rule rest ih =>
      obtain ⟨hrule, hrest⟩ := List.forall_mem_cons.mp hleaves
      rw [applyRules, hrule]
      exact ih hrest

/-- A pass answers the very plan that it was given, and takes no handle. -/
theorem Rewriter.rewriteNode_of_leaves (hnode : node.Whole)
    (hleaves : ∀ part ∈ node.preorder, ∀ rule ∈ rules, rule.Leaves part) :
    rewriteNode rules node = pure node := by
  induction node using Node.inductionOn with
  | step node ih =>
      obtain ⟨hwell, hparts⟩ := Node.whole_iff.mp hnode
      obtain ⟨hself, hchildren⟩ := Node.forall_mem_preorder_iff.mp hleaves
      have hvisited : node.visitChildren (rewriteNode rules) = pure node :=
        hwell.visitChildren_of_pure fun child hchild =>
          ih child hchild (hparts child hchild) (hchildren child hchild)
      rw [rewriteNode_eq, hvisited, pure_bind, applyRules_of_leaves hself]

theorem Rewriter.outcome_self (node : Node) : outcome node node = .unchanged node := by
  simp [outcome, Node.is]

theorem Rewriter.rewrite_of_leaves {rewriter : Rewriter} (hnode : node.Whole)
    (hleaves : ∀ part ∈ node.preorder, ∀ rule ∈ rewriter.rules, rule.Leaves part) :
    rewriter.rewrite node = pure (.unchanged node) := by
  rw [rewrite, rewriteNode_of_leaves hnode hleaves, pure_bind, outcome_self]

end Leaves

/-! ## The records of a pass -/

/-- A record of a rule that answered a new node. -/
def Record.IsApplication (record : Record) : Prop :=
  ∃ rule old new, record = .ruleApplied rule old new

/-- The journal has grown by records of rules that answered new nodes. -/
def GrownByApplications (own : Journal) (store : Store Journal) (_ : Session) : Prop :=
  ∃ records, store.own = own ++ records ∧ ∀ record ∈ records, record.IsApplication

/-- An action that reports nothing but that rules answered new nodes. -/
def ReportsApplications {α : Type} (action : Work Journal α) : Prop :=
  ∀ own session, Leads (GrownByApplications own) session action fun _ _ => True

namespace ReportsApplications

theorem pure {α : Type} (value : α) : ReportsApplications (Pure.pure value) :=
  fun _ _ => Leads.pure trivial

theorem ofBuild {α : Type} (build : Build α) : ReportsApplications (Work.ofBuild build) :=
  fun _ session => Leads.ofBuild fun _ _ hgrown => ⟨session, .refl session, hgrown, trivial⟩

theorem ofExcept {α : Type} (check : Except NodeError α) :
    ReportsApplications (Attempt.ofExcept check) :=
  fun _ _ => Leads.ofExcept.mono fun _ _ _ _ => trivial

theorem bind {α β : Type} {action : Work Journal α} {rest : α → Work Journal β}
    (haction : ReportsApplications action)
    (hrest : ∀ value, ReportsApplications (rest value)) :
    ReportsApplications (action >>= rest) :=
  fun own session => Leads.bind (haction own session)
    (fun value later _ _ => hrest value own later) (fun _ _ _ _ => trivial)

theorem report (rule : String) (old new : Kind) :
    ReportsApplications (Rewriter.report (.ruleApplied rule old new)) := by
  intro own session
  refine Leads.mono (Leads.modifyOwn ?_) (fun _ _ _ _ => trivial)
  rintro next journal ⟨records, hown, hrecords⟩
  refine ⟨records ++ [.ruleApplied rule old new], ?_, ?_⟩
  · rw [← List.append_assoc, ← hown]
  · simpa [or_imp, forall_and] using ⟨hrecords, rule, old, new, rfl⟩

theorem visitFrom {change : Node → Work Journal Node} (label : Label) (place : Nat)
    {children : List Node} (hchange : ∀ child ∈ children, ReportsApplications (change child)) :
    ReportsApplications (Node.visitFrom change label place children) := by
  induction children generalizing place with
  | nil => exact pure []
  | cons child rest ih =>
      obtain ⟨hchild, hrest⟩ := List.forall_mem_cons.mp hchange
      refine hchild.bind fun changed => (ofExcept _).bind fun _ => ?_
      exact (ih (place + 1) hrest).bind fun news => pure (changed :: news)

theorem applyRules (rules : List Rule) (node : Node) :
    ReportsApplications (Rewriter.applyRules rules node) := by
  induction rules generalizing node with
  | nil => exact pure node
  | cons rule rest ih =>
      refine (ofBuild (rule.apply node)).bind fun outcome => ?_
      cases outcome with
      | unchanged kept => exact ih node
      | changed new => exact (report _ _ _).bind fun _ => ih new

theorem rewriteNode (rules : List Rule) (node : Node) :
    ReportsApplications (Rewriter.rewriteNode rules node) := by
  induction node using Node.inductionOn with
  | step node ih =>
      have hvisit : ReportsApplications
          (node.visitChildren (Rewriter.rewriteNode rules)) :=
        (visitFrom node.label 0 ih).bind fun children => ofBuild (node.update children)
      rw [Rewriter.rewriteNode_eq]
      exact hvisit.bind fun rebuilt => applyRules rules rebuilt

theorem rewrite (rewriter : Rewriter) (node : Node) :
    ReportsApplications (rewriter.rewrite node) :=
  (rewriteNode rewriter.rules node).bind fun _ => pure _

theorem iterate (rewriter : Rewriter) (count : Nat) (node : Node) :
    ReportsApplications (rewriter.iterate count node) := by
  induction count generalizing node with
  | zero => exact pure []
  | succ count ih =>
      refine (rewrite rewriter node).bind fun outcome => ?_
      exact (ih outcome.node).bind fun rest => pure (outcome :: rest)

theorem exists_records {α : Type} {action : Work Journal α}
    (haction : ReportsApplications action) {store store' : Store Journal} {value : α}
    (hrun : action store = .ok value store') :
    ∃ records, store'.own = store.own ++ records ∧
      ∀ record ∈ records, record.IsApplication := by
  obtain ⟨later, -, hgrown, -⟩ :=
    haction store.own ⟨store.next, []⟩ store ⟨[], by simp, by simp⟩
  rwa [hrun] at hgrown

end ReportsApplications

/-- Whatever the rules are, a pass reports nothing but that they were applied. -/
theorem Rewriter.exists_applications_of_rewrite {rewriter : Rewriter} {node : Node}
    {store store' : Store Journal} {outcome : Outcome}
    (hrun : rewriter.rewrite node store = .ok outcome store') :
    ∃ records, store'.own = store.own ++ records ∧
      ∀ record ∈ records, record.IsApplication :=
  (ReportsApplications.rewrite rewriter node).exists_records hrun

/-! ## Normalised plans -/

/-- Nothing in the plan is left to the normalisers: no parameter that one of them binds
and, if they forward, no call of a function that the table forwards. -/
structure Node.Normalised (table : ForwardingTable) (normalisers : List Normaliser)
    (node : Node) : Prop where
  parameters : ∀ part ∈ node.preorder, ∀ name type, part.label = .parameter name type →
    ∀ bindings, .substitution bindings ∈ normalisers → bindings.get? name = none
  calls : ∀ part ∈ node.preorder, ∀ signature type, part.label = .call signature type →
    .forwarding ∈ normalisers → table.contains signature = false

section Passes

variable {normalisers : List Normaliser} {rewriter : Rewriter} {node : Node}
  {store store' : Store Journal} {outcome : Outcome}

theorem Node.Normalised.of_leaves
    (hleaves : ∀ part ∈ node.preorder, ∀ normaliser ∈ normalisers,
      (normaliser.rule table).Leaves part) : node.Normalised table normalisers where
  parameters part hpart name type hlabel _ hbindings :=
    Bindings.leaves_iff.mp (hleaves part hpart _ hbindings) name type hlabel
  calls part hpart signature type hlabel hforwarding :=
    (table.contains_eq_false_iff signature).mpr
      (ForwardingTable.leaves_iff.mp (hleaves part hpart _ hforwarding) signature type
        hlabel)

/-- The plan that a pass answers is left by all the rules of the pass. -/
theorem Normaliser.leaves_of_rewrite {session : Session} (hreached : session.Reached)
    (hnode : session.Knows node) (htable : table.Reached)
    (hrules : rewriter.rules = normalisers.map (rule table))
    (hstore : session.next ≤ store.next)
    (hrun : rewriter.rewrite node store = .ok outcome store') :
    outcome.node.Whole ∧ ∀ part ∈ outcome.node.preorder, ∀ normaliser ∈ normalisers,
      (normaliser.rule table).Leaves part := by
  have hrelabels : List.Forall₂ (Rule.Relabels session) rewriter.rules
      (normalisers.map (relabel table)) := by
    rw [hrules, List.forall₂_map_left_iff, List.forall₂_map_right_iff, List.forall₂_same]
    exact fun normaliser _ => relabels session htable normaliser
  have hextends : Extends ⟨store.next, session.held⟩ session := fun _ hknown => hknown
  have hlater : Knows ⟨store.next, session.held⟩ node := hnode
  obtain ⟨later, -, hgoes, hknown, hnormal⟩ := leads_rewrite_apply hrelabels hlater store
    ⟨.forget session _ hreached hstore (fun _ hknown => hknown), rfl, hextends⟩
  rw [hrun] at hgoes hknown hnormal
  refine ⟨hgoes.1.sound.whole (hknown outcome.node List.mem_cons_self), ?_⟩
  intro part hpart normaliser hnormaliser
  obtain ⟨old, hold⟩ := Relabelling.exists_label_of_mem_preorder hnormal.symm
    (Node.normal_mem_preorder hpart)
  exact leaves_of_kept htable (kept_of_compose_eq_ok htable hold hnormaliser)

/-- Passes end with the second one at the latest if it answers what it was given. -/
theorem Rewriter.rewriteToFixpoint_of_rewrite
    (hrun : rewriter.rewrite node store = .ok outcome store')
    (hagain : rewriter.rewrite outcome.node store' = .ok (.unchanged outcome.node) store')
    (hpasses : 2 ≤ rewriter.maxPasses) :
    rewriter.rewriteToFixpoint node store = .ok outcome
      { store' with
        own := store'.own ++ [.fixpointReached (if outcome.isChanged then 2 else 1)] } := by
  have houtcome : Rewriter.outcome node outcome.node = outcome := by
    obtain ⟨trace, -, rfl⟩ := exists_trace_of_rewrite hrun
    rw [node_outcome]
  have hnone := Changes.nil rewriter node store
  cases outcome with
  | unchanged next =>
      simp only [Outcome.node] at houtcome
      rw [rewriteToFixpoint_of_unchanged hnone hrun (by simp; omega), houtcome]
      rfl
  | changed next =>
      simp only [Outcome.node] at houtcome hagain
      rw [rewriteToFixpoint_of_unchanged (hnone.concat hrun) hagain (by simp; omega), houtcome]
      rfl

/-- One pass of normalisers over a known plan leaves nothing to them.  Another pass from
any state answers the very plan it was given and changes nothing; so passes to the
fixpoint, if two are allowed, answer what the first one does, and report that they came
to the fixpoint in the second pass, or in the first if it changed nothing. -/
theorem one_pass_normalises {session : Session} (hreached : session.Reached)
    (hnode : session.Knows node) (htable : table.Reached)
    (hrules : rewriter.rules = normalisers.map (Normaliser.rule table))
    (hstore : session.next ≤ store.next)
    (hrun : rewriter.rewrite node store = .ok outcome store') :
    outcome.node.Normalised table normalisers ∧
      (∀ later, rewriter.rewrite outcome.node later =
        .ok (.unchanged outcome.node) later) ∧
      ∃ records : Journal, store'.own = store.own ++ records ∧
        (∀ record ∈ records, record.IsApplication) ∧
        (2 ≤ rewriter.maxPasses → rewriter.rewriteToFixpoint node store = .ok outcome
          { store' with
            own := store.own ++ records ++
              [.fixpointReached (if outcome.isChanged then 2 else 1)] }) := by
  obtain ⟨hwhole, hleaves⟩ :=
    Normaliser.leaves_of_rewrite hreached hnode htable hrules hstore hrun
  have hagain : rewriter.rewrite outcome.node = pure (.unchanged outcome.node) := by
    apply Rewriter.rewrite_of_leaves hwhole
    simpa [hrules] using hleaves
  obtain ⟨records, hown, hrecords⟩ := Rewriter.exists_applications_of_rewrite hrun
  refine ⟨.of_leaves hleaves, congrFun hagain, records, hown, hrecords, ?_⟩
  intro hpasses
  rw [← hown]
  exact Rewriter.rewriteToFixpoint_of_rewrite hrun (congrFun hagain store') hpasses

end Passes

end

open Session
open scoped Hints

/-- A call that is forwarded along two entries, with a bound argument. -/
theorem one_pass_normalises_call :
    ∃ (session : Session) (call : Node) (table : ForwardingTable) (last : Signature)
      (normalisers : List Normaliser) (rewriter : Rewriter) (store' : Store Journal)
      (outcome : Outcome),
      session.Reached ∧ session.Knows call ∧ table.Reached ∧ table.size = 2 ∧
      rewriter.rules = normalisers.map (Normaliser.rule table) ∧
      rewriter.rewrite call ⟨session.next, []⟩ = .ok outcome store' ∧
      outcome.node.label = .call last .float ∧
      outcome.node.Normalised table normalisers ∧
      (∀ later, rewriter.rewrite outcome.node later =
        .ok (.unchanged outcome.node) later) ∧
      store'.own.length = 2 ∧ (∀ record ∈ store'.own, record.IsApplication) ∧
      rewriter.rewriteToFixpoint call ⟨session.next, []⟩ = .ok outcome
        { store' with own := store'.own ++ [.fixpointReached 2] } := by
  let root : Signature := ⟨none, "root", ["double"]⟩
  let sqrt : Signature := ⟨some "Math", "Sqrt", ["double"]⟩
  let fast : Signature := ⟨some "Fast", "Sqrt", ["double"]⟩
  have hone : ForwardingTable.Reached ⟨[(root, sqrt)]⟩ := .insert root sqrt .empty rfl
  let table : ForwardingTable := ⟨[(root, sqrt), (sqrt, fast)]⟩
  have htable : table.Reached := .insert sqrt fast hone rfl
  let x := (Label.parameter "x" .float).node 0 .empty []
  let call := (Label.call root .float).node 1 .empty [x]
  let session : Session := ⟨2, [call, x]⟩
  have hx : Reached ⟨1, [x]⟩ := (Reached.start 0).assemble (by simp) rfl
  have hreached : session.Reached := hx.assemble (by simp) rfl
  have hcall : session.Knows call := knows_of_mem_held List.mem_cons_self
  let normalisers : List Normaliser :=
    [.forwarding, .substitution (Bindings.empty.bind "x" (.int 4)), .forwarding]
  let rewriter : Rewriter := .ofRules (normalisers.map (Normaliser.rule table))
  obtain ⟨outcome, store', hrun, hchanged, hlabel, hlength⟩ :
      ∃ outcome store', rewriter.rewrite call ⟨session.next, []⟩ = .ok outcome store' ∧
        outcome.isChanged = true ∧ outcome.node.label = .call fast .float ∧
        store'.own.length = 2 := ⟨_, _, rfl, rfl, rfl, rfl⟩
  obtain ⟨hnormalised, hagain, records, hown, hrecords, hfixpoint⟩ :=
    one_pass_normalises hreached hcall htable rfl (le_refl _) hrun
  have hrecorded : store'.own = records := hown
  rw [hchanged, ← hown] at hfixpoint
  rw [← hrecorded] at hrecords
  exact ⟨session, call, table, fast, normalisers, rewriter, store', outcome, hreached, hcall,
    htable, rfl, rfl, hrun, hlabel, hnormalised, hagain, hlength, hrecords,
    hfixpoint (by decide)⟩

end QueryPlan
