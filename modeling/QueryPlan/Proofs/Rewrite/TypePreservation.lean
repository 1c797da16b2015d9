import QueryPlan.Proofs.Annotations.Hints
import QueryPlan.Proofs.Rewrite.Congruence

/-!
# Type-preserving rewriting

Substitution and forwarding keep the type of a node, and so does a replacement
by a node of the same type.  Rewriting by such rules passes every check again:
the children of a node keep their categories and types, and nothing else is
checked.  What can fail is a substitution alone, over a binding that does not
fit.
-/

namespace QueryPlan

section

variable [ForeignTypes]

open ForeignTypes (LawfulEqual)

open Session

/-- The rules of the library, replacements being made between nodes of one type
or between table sources, which have none. -/
inductive Rule.TypePreserving (base : Session) : Rule → Prop
  | substitution (bindings : Bindings) : TypePreserving base bindings.rule
  | forwarding (table : ForwardingTable) :
      table.Reached → TypePreserving base table.rule
  | replacement (replacement : Replacement) :
      base.Knows replacement.target → base.Knows replacement.replacement →
      replacement.target.dataType? = replacement.replacement.dataType? →
      TypePreserving base replacement.rule

/-- The fault of a substitution among the rules that has a binding which does
not fit the type that a parameter declares. -/
inductive Rule.IncompatibleBinding (rules : List Rule) : NodeError → Prop
  | intro (bindings : Bindings) (name : String) (declared : DataType)
      (value : Literal) :
      bindings.rule ∈ rules → bindings.get? name = some value →
      declared.accepts value.dataType = false →
      IncompatibleBinding rules
        (.incompatibleBinding name declared value.dataType)

/-- Checking the parts looks at the types of the children alone. -/
theorem Label.checkParts_eq_of_types_eq (label : Label) {children others : List Node}
    (htypes : children.map (·.type) = others.map (·.type)) :
    label.checkParts children = label.checkParts others := by
  have hlength : children.length = others.length := by
    simpa using congrArg List.length htypes
  have hpredicate : label.checkPredicate children = label.checkPredicate others := by
    cases label with
    | joinOn form =>
        rcases children with _ | ⟨table, _ | ⟨predicate, _ | ⟨child, rest⟩⟩⟩ <;>
          rcases others with _ | ⟨table', _ | ⟨predicate', _ | ⟨child', rest'⟩⟩⟩ <;>
            simp_all [checkPredicate]
    | _ => rfl
  rw [checkParts, checkParts, checkCount, checkCount, hlength, hpredicate]

/-- What is made of a node is whole and of its category and type, or there is
one of the expected faults. -/
def KeepsType (faults : NodeError → Prop) (node : Node) :
    Except NodeError Node → Prop
  | .ok new => new.Whole ∧ new.category = node.category ∧ new.type = node.type
  | .error fault => faults fault

def KeepsTypes (faults : NodeError → Prop) (label : Label) (place : Nat)
    (children : List Node) : Except NodeError (List Node) → Prop
  | .ok news => (∀ new ∈ news, new.Whole) ∧
      label.checkCategories place news = .ok () ∧
      news.map (·.type) = children.map (·.type)
  | .error fault => faults fault

def Step.Keeps (faults : NodeError → Prop) (step : Step) : Prop :=
  ∀ node : Node, node.Whole → KeepsType faults node (step node)

section Keeping

variable {faults : NodeError → Prop} {node : Node}

theorem keepsType_self (hnode : node.Whole) : KeepsType faults node (.ok node) :=
  ⟨hnode, rfl, rfl⟩

theorem KeepsType.bind {result : Except NodeError Node} {step : Step}
    (hresult : KeepsType faults node result) (hstep : step.Keeps faults) :
    KeepsType faults node (result >>= step) := by
  cases result with
  | error fault => exact hresult
  | ok new =>
      obtain ⟨hnew, hcategory, htype⟩ := hresult
      have hlast := hstep new hnew
      simp only [Bind.bind, Except.bind]
      cases hrun : step new with
      | error fault =>
          rw [hrun] at hlast
          exact hlast
      | ok last =>
          rw [hrun] at hlast
          exact ⟨hlast.1, hlast.2.1.trans hcategory, hlast.2.2.trans htype⟩

theorem keepsType_rebuild {label : Label} {annotations : Annotations}
    {children : List Node} (hchildren : ∀ child ∈ children, child.Whole)
    (hcategories : label.checkCategories 0 children = .ok ())
    (hparts : label.checkParts children = .ok ())
    (hannotations : annotations.WellFormed)
    (hcategory : label.category = node.category)
    (htype : label.typeOf (children.map (·.type)) = node.type) :
    KeepsType faults node (NormalRewriting.rebuild label annotations children) := by
  rw [NormalRewriting.rebuild, hparts]
  have hwell : (label.node 0 annotations children).WellFormed :=
    Label.wellFormed_node hcategories hparts hannotations
  exact ⟨Node.whole_iff.mpr ⟨hwell, hchildren⟩, hcategory, htype⟩

theorem keepsTypes_visitAll {change : Step} (label : Label) (place : Nat)
    {children : List Node}
    (hchildren : ∀ child ∈ children, KeepsType faults child (change child))
    (hcategories : label.checkCategories place children = .ok ()) :
    KeepsTypes faults label place children
      (NormalRewriting.visitAll change label place children) := by
  induction children generalizing place with
  | nil => exact ⟨by simp, rfl, rfl⟩
  | cons child rest ih =>
      obtain ⟨hchild, hrest⟩ :=
        (label.checkCategories_cons_eq_ok_iff place child rest).mp hcategories
      have hfirst := hchildren child List.mem_cons_self
      have hothers := ih (place + 1)
        (fun other hother => hchildren other (List.mem_cons_of_mem child hother)) hrest
      simp only [NormalRewriting.visitAll, bind, Except.bind]
      cases hnew : change child with
      | error fault =>
          rw [hnew] at hfirst
          exact hfirst
      | ok new =>
          rw [hnew] at hfirst
          obtain ⟨hwhole, hcategory, htype⟩ := hfirst
          have hfits : new.category = label.slotCategory place := hcategory.trans hchild
          have hexpect : new.expect label.kind (label.slotCategory place) = .ok new :=
            Node.expect_eq_ok_iff.mpr ⟨hfits, rfl⟩
          simp only [hexpect]
          cases hnews : NormalRewriting.visitAll change label (place + 1) rest with
          | error fault =>
              rw [hnews] at hothers
              exact hothers
          | ok news =>
              rw [hnews] at hothers
              obtain ⟨hwholes, hcategories, htypes⟩ := hothers
              refine ⟨?_, ?_, ?_⟩
              · simpa using ⟨hwhole, hwholes⟩
              · exact (label.checkCategories_cons_eq_ok_iff place new news).mpr
                  ⟨hfits, hcategories⟩
              · rw [List.map_cons, List.map_cons, htype, htypes]

theorem keepsType_visitChildren {change : Step} (hnode : node.Whole)
    (hchildren : ∀ child ∈ node.children, KeepsType faults child (change child)) :
    KeepsType faults node (NormalRewriting.visitChildren change node) := by
  have hwell := (Node.whole_iff.mp hnode).1
  have hvisited := keepsTypes_visitAll node.label 0 hchildren hwell.checkCategories
  unfold NormalRewriting.visitChildren
  cases hnews : NormalRewriting.visitAll change node.label 0 node.children with
  | error fault =>
      rw [hnews] at hvisited
      exact hvisited
  | ok news =>
      rw [hnews] at hvisited
      obtain ⟨hwholes, hcategories, htypes⟩ := hvisited
      refine keepsType_rebuild hwholes hcategories ?_ hwell.annotations rfl ?_
      · rw [node.label.checkParts_eq_of_types_eq htypes]
        exact hwell.checkParts
      · rw [htypes]
        exact hwell.type_eq.symm

end Keeping

/-! ## Rewriting by keeping steps -/

section Rewriting

variable {faults : NodeError → Prop} {steps : List Step}
  (hsteps : ∀ step ∈ steps, step.Keeps faults)
include hsteps

theorem keeps_applySteps : Step.Keeps faults (NormalRewriting.applySteps steps) := by
  induction steps with
  | nil => exact fun node hnode => keepsType_self hnode
  | cons step rest ih =>
      intro node hnode
      apply KeepsType.bind (hsteps step List.mem_cons_self node hnode)
      exact ih fun other hother => hsteps other (List.mem_cons_of_mem step hother)

theorem keeps_rewriteNode :
    Step.Keeps faults (NormalRewriting.rewriteNode steps) := by
  intro node hnode
  induction node using Node.inductionOn with
  | step node ih =>
      rw [NormalRewriting.rewriteNode_eq_visitChildren]
      refine KeepsType.bind (keepsType_visitChildren hnode ?_) (keeps_applySteps hsteps)
      exact fun child hchild => ih child hchild ((Node.whole_iff.mp hnode).2 child hchild)

theorem keeps_passes (remaining : Nat) :
    Step.Keeps faults (NormalRewriting.passes steps remaining) := by
  induction remaining with
  | zero => exact fun node hnode => keepsType_self hnode
  | succ remaining ih =>
      exact fun node hnode => KeepsType.bind (keeps_rewriteNode hsteps node hnode) ih

end Rewriting

/-! ## The steps of type-preserving rules -/

section Steps

variable {rules : List Rule}

theorem Bindings.keeps_step {bindings : Bindings} (hbindings : bindings.rule ∈ rules) :
    bindings.step.Keeps (Rule.IncompatibleBinding rules) := by
  intro node hnode
  have hwell := (Node.whole_iff.mp hnode).1
  unfold Bindings.step
  cases hlabel : node.label with
  | parameter name type =>
      have htype : node.type = type := by
        rw [hwell.type_eq, hlabel]
        rfl
      have hcategory : node.category = .scalar := by
        rw [Node.category, hlabel]
        rfl
      cases hget : bindings.get? name with
      | none =>
          simp only [hget]
          exact keepsType_self hnode
      | some value =>
          simp only [hget]
          split
          · exact keepsType_rebuild (by simp) rfl rfl hwell.annotations
              hcategory.symm htype.symm
          · rename_i haccepts
            exact Rule.IncompatibleBinding.intro bindings name type value hbindings hget
              (by simpa using haccepts)
  | _ => exact keepsType_self hnode

theorem ForwardingTable.keeps_step {faults : NodeError → Prop}
    {table : ForwardingTable} (htable : table.Reached) :
    table.step.Keeps faults := by
  intro node hnode
  obtain ⟨hwell, hchildren⟩ := Node.whole_iff.mp hnode
  unfold ForwardingTable.step
  cases hlabel : node.label with
  | call signature type =>
      cases hresolve : table.resolve? signature with
      | none =>
          simp only [hresolve]
          exact keepsType_self hnode
      | some target =>
          simp only [hresolve]
          have harity : node.children.length = target.arity := by
            rw [htable.arity_resolve? hresolve, hwell.arity, hlabel]
            rfl
          have hcategories := hwell.checkCategories
          rw [hlabel, Label.checkCategories_eq_ok_iff] at hcategories
          refine keepsType_rebuild hchildren ?_ ?_ hwell.annotations ?_ ?_
          · exact (Label.checkCategories_eq_ok_iff _ 0 _).mpr hcategories
          · refine (Label.checkParts_eq_ok_iff _ _).mpr ⟨?_, rfl⟩
            exact (Label.checkCount_eq_ok_iff _ _).mpr harity
          · rw [Node.category, hlabel]
            rfl
          · rw [hwell.type_eq, hlabel]
            rfl
  | _ => exact keepsType_self hnode

theorem Node.WellFormed.type_of_source {node : Node} (hnode : node.WellFormed)
    (hsource : node.category = .source) : node.type = .unknown := by
  rw [hnode.type_eq]
  rw [Node.category] at hsource
  cases hlabel : node.label <;> rw [hlabel] at hsource <;>
    first | rfl | cases hsource

theorem Node.WellFormed.category_type_of_dataType?_eq {a b : Node}
    (ha : a.WellFormed) (hb : b.WellFormed) (htype : a.dataType? = b.dataType?) :
    a.category = b.category ∧ a.type = b.type := by
  unfold Node.dataType? at htype
  cases hcategoryA : a.category <;> cases hcategoryB : b.category <;>
    simp only [hcategoryA, hcategoryB] at htype ⊢
  · exact ⟨trivial, (ha.type_of_source hcategoryA).trans
      (hb.type_of_source hcategoryB).symm⟩
  · simp at htype
  · simp at htype
  · exact ⟨trivial, by simpa using htype⟩

theorem Replacement.keeps_step {faults : NodeError → Prop} {replacement : Replacement}
    (htarget : replacement.target.WellFormed)
    (hreplacement : replacement.replacement.Whole)
    (htype : replacement.target.dataType? = replacement.replacement.dataType?) :
    replacement.step.Keeps faults := by
  obtain ⟨hcategory, htype⟩ := htarget.category_type_of_dataType?_eq
    (Node.whole_iff.mp hreplacement).1 htype
  intro node hnode
  unfold Replacement.step
  split
  · rename_i heq
    exact ⟨hreplacement.normal, by simp [heq, hcategory], by simp [heq, htype]⟩
  · exact keepsType_self hnode

end Steps

theorem Rule.TypePreserving.exists_step [LawfulEqual] {base : Session} (hbase : base.Sound)
    {rules : List Rule} {rule : Rule} (hmem : rule ∈ rules)
    (hrule : rule.TypePreserving base) :
    ∃ step, rule.Computes base step ∧ step.Keeps (IncompatibleBinding rules) := by
  cases hrule with
  | substitution bindings =>
      exact ⟨_, bindings.computes_step base, Bindings.keeps_step hmem⟩
  | forwarding table htable =>
      exact ⟨_, table.computes_step base, ForwardingTable.keeps_step htable⟩
  | replacement replacement htarget hreplacement htype =>
      exact ⟨_, Replacement.computes_step htarget hreplacement,
        Replacement.keeps_step (hbase.wellFormed _ htarget)
          (hbase.whole hreplacement) htype⟩

/-! ## Runs -/

/-- A run answers a plan of the category and type of the given one, or fails
over an incompatible binding. -/
def Rewriter.AnswersAlike (rewriter : Rewriter) (node : Node) :
    Except NodeError Outcome → Prop
  | .ok outcome => outcome.node.category = node.category ∧
      outcome.node.dataType? = node.dataType?
  | .error fault => Rule.IncompatibleBinding rewriter.rules fault

theorem Rewriter.answersAlike_of_keepsType {rewriter : Rewriter} {node : Node}
    {result : Except NodeError Outcome}
    (hkeeps : KeepsType (Rule.IncompatibleBinding rewriter.rules) node.normal
      (Rewriter.normalAnswer result)) : rewriter.AnswersAlike node result := by
  cases result with
  | error fault => exact hkeeps
  | ok outcome =>
      obtain ⟨-, hcategory, htype⟩ := hkeeps
      simp only [Node.normal_category, Node.normal_type] at hcategory htype
      exact ⟨hcategory, by simp [Node.dataType?, hcategory, htype]⟩

/-- Rewriting a known plan by type-preserving rules, in one pass or to the
fixpoint, passes every check and keeps the category and the type of the plan;
it fails over an incompatible binding or not at all. -/
theorem rewriting_preserves_type [LawfulEqual] {session : Session} (hreached : session.Reached)
    {node : Node} (hnode : session.Knows node) {rewriter : Rewriter}
    (hrules : ∀ rule ∈ rewriter.rules, rule.TypePreserving session)
    (store : Store Journal) (hstore : session.next ≤ store.next) :
    rewriter.AnswersAlike node (answer (rewriter.rewrite node store)) ∧
      rewriter.AnswersAlike node (answer (rewriter.rewriteToFixpoint node store)) := by
  obtain ⟨steps, hgood⟩ := exists_steps fun rule hrule =>
    (hrules rule hrule).exists_step hreached.sound hrule
  have hcomputes := hgood.imp fun _ _ hstep => hstep.1
  have hkeeps : ∀ step ∈ steps,
      step.Keeps (Rule.IncompatibleBinding rewriter.rules) := by
    intro step hstep
    obtain ⟨place, hplace, rfl⟩ := List.getElem_of_mem hstep
    exact ((List.forall₂_iff_get.mp hgood).2 place
      (by rw [hgood.length_eq]; exact hplace) hplace).2
  have hwhole := (hreached.sound.whole hnode).normal
  constructor
  · apply Rewriter.answersAlike_of_keepsType
    rw [normalAnswer_rewrite hreached hnode hcomputes hstore]
    exact keeps_rewriteNode hkeeps node.normal hwhole
  · apply Rewriter.answersAlike_of_keepsType
    rw [normalAnswer_rewriteToFixpoint hreached hnode hcomputes hstore]
    exact keeps_passes hkeeps rewriter.maxPasses node.normal hwhole

end

open Session
open scoped Hints

/-- A join whose predicate is replaced by a column, had it not been bound. -/
theorem rewriting_preserves_type_join :
    ∃ (session : Session) (join : Node) (rewriter : Rewriter) (store : Store Journal),
      session.Reached ∧ session.Knows join ∧
      (∀ rule ∈ rewriter.rules, rule.TypePreserving session) ∧
      rewriter.rules.length = 3 ∧ session.next ≤ store.next ∧
      rewriter.AnswersAlike join (answer (rewriter.rewrite join store)) ∧
      rewriter.AnswersAlike join (answer (rewriter.rewriteToFixpoint join store)) := by
  let table := (Label.table "t" none none).node 0 .empty []
  let predicate := (Label.parameter "p" .boolean).node 1 .empty []
  let column := (Label.column none "c" .boolean).node 2 .empty []
  let join := (Label.joinOn .left).node 3 .empty [table, predicate]
  let session : Session := ⟨4, [join, column, predicate, table]⟩
  have htable : Reached ⟨1, [table]⟩ := (Reached.start 0).assemble (by simp) rfl
  have hpredicate : Reached ⟨2, [predicate, table]⟩ := htable.assemble (by simp) rfl
  have hcolumn : Reached ⟨3, [column, predicate, table]⟩ :=
    hpredicate.assemble (by simp) rfl
  have hreached : session.Reached := hcolumn.assemble (by simp) rfl
  have hknowsPredicate : session.Knows predicate :=
    knows_of_mem_held (by simp [session])
  have hknowsColumn : session.Knows column := knows_of_mem_held (by simp [session])
  have hknowsJoin : session.Knows join := knows_of_mem_held (by simp [session])
  let rewriter : Rewriter :=
    .ofRules [(Bindings.empty.bind "p" (.bool true)).rule,
      ForwardingTable.standard.rule, (Replacement.mk predicate column).rule]
  have hrules : ∀ rule ∈ rewriter.rules, rule.TypePreserving session := by
    intro rule hrule
    rcases List.mem_cons.mp hrule with rfl | hrule
    · exact .substitution _
    · rcases List.mem_cons.mp hrule with rfl | hrule
      · exact .forwarding _ .standard
      · rw [List.mem_singleton.mp hrule]
        exact .replacement _ hknowsPredicate hknowsColumn rfl
  have hresult := rewriting_preserves_type hreached hknowsJoin hrules
    ⟨session.next, []⟩ (le_refl _)
  exact ⟨session, join, rewriter, ⟨session.next, []⟩, hreached, hknowsJoin, hrules,
    rfl, le_refl _, hresult⟩

end QueryPlan
