import QueryPlan.Proofs.Annotations.Hints
import QueryPlan.Proofs.Node.Positions
import QueryPlan.Proofs.Rewrite.Reallocation
import QueryPlan.Proofs.Rewrite.Uniformity

/-!
# A pass is a transformation

A pass of a rewriter goes from the leaves up with a recursion and results of its own.  It
does what the transformation from the leaves up does by the operation that applies the rules
in turn, whatever the rules are, if both start with the same handles.

A rule that is a function of the node cannot tell with which handles a run started.  The
results of two runs are then one plan, in which the handles that were given out meanwhile
come later by one gap or by another.  All older handles stand where they stood.
-/

namespace QueryPlan

def SameNext {σ υ : Type} (store : Store σ) (store' : Store υ) : Prop :=
  store'.next = store.next

theorem SameNext.follows_ofBuild {σ υ α : Type} (build : Build α) :
    Follows (SameNext (σ := σ) (υ := υ)) id (Work.ofBuild build) (Work.ofBuild build) := by
  intro store store' hnext
  unfold Work.ofBuild
  rw [hnext]
  cases build store.next <;> exact ⟨rfl, rfl⟩

section

variable [ForeignTypes] {σ : Type}

/-- The operation that applies rules in order, each to what the ones before it have made of
the node.  It changes the node if one of the rules does. -/
def Rule.inTurn : List Rule → Node → Work σ Outcome
  | [], node => pure (.unchanged node)
  | rule :: rest, node => do
      match ← rule.apply node with
      | .changed new => return .changed (← inTurn rest new).node
      | .unchanged _ => inTurn rest node

/-! ## Runs from the same handles -/

namespace SameNext

variable {υ : Type}

theorem follows_visitChildren {change : Node → Work σ Node} {change' : Node → Work υ Node}
    {node : Node}
    (hchange : ∀ child ∈ node.children, Follows SameNext id (change child) (change' child)) :
    Follows SameNext id (node.visitChildren change) (node.visitChildren change') := by
  have hexpect : ∀ (node : Node) (parent : Kind) (category : Category),
      (id node).expect parent category = (node.expect parent category).map id := by
    intro node parent category
    rw [Except.map_id, id, id]
  have hvisit := Node.follows_visitFrom hexpect node.label 0 hchange
  rw [List.map_id, List.map_id_fun] at hvisit
  exact hvisit.bind fun children => follows_ofBuild (node.update children)

/-- Applying the rules is the operation that applies them in turn; the journal is left out. -/
theorem follows_applyRules (rules : List Rule) (node : Node) :
    Follows (SameNext (υ := σ)) id (Rewriter.applyRules rules node)
      (Outcome.node <$> Rule.inTurn rules node) := by
  induction rules generalizing node with
  | nil => exact Follows.pure
  | cons rule rest ih =>
      simp only [Rewriter.applyRules, Rule.inTurn, map_bind]
      refine (follows_ofBuild (rule.apply node)).bind fun outcome => ?_
      cases outcome with
      | unchanged kept => exact ih node
      | changed new =>
          -- The record of the application is added to the journal alone.
          let record : Record := .ruleApplied rule.name node.kind new.kind
          have hreport : Follows (SameNext (υ := σ)) id (Rewriter.report record) (pure ()) :=
            fun _ _ hnext => ⟨hnext, rfl⟩
          have hrest : Follows (SameNext (υ := σ)) id
              (Rewriter.report record >>= fun _ => Rewriter.applyRules rest new)
              (pure () >>= fun _ => Outcome.node <$> Rule.inTurn rest new) :=
            hreport.bind fun _ => ih new
          rw [pure_bind, map_eq_pure_bind] at hrest
          simp only [id_eq, map_bind, map_pure]
          exact hrest

theorem follows_rewriteNode (rules : List Rule) (node : Node) :
    Follows (SameNext (υ := σ)) id (Rewriter.rewriteNode rules node)
      (node.transformUp (Rule.inTurn rules)) := by
  induction node using Node.inductionOn with
  | step node ih =>
      rw [Rewriter.rewriteNode_eq, Node.transformUp_eq]
      refine (follows_visitChildren ih).bind fun rebuilt => ?_
      simpa using follows_applyRules rules rebuilt

end SameNext

namespace Rewriter

/-- From the same handles a pass answers what the transformation answers, and tells by the
handle whether it is the node that was given. -/
theorem answer_rewrite (rewriter : Rewriter) (node : Node) {store : Store Journal}
    {store' : Store σ} (hnext : store'.next = store.next) :
    answer (rewriter.rewrite node store) =
        (answer (node.transformUp (Rule.inTurn rewriter.rules) store')).map (outcome node) ∧
      (final (node.transformUp (Rule.inTurn rewriter.rules) store')).next =
        (final (rewriter.rewrite node store)).next := by
  obtain ⟨hfinal, hanswer⟩ := SameNext.follows_rewriteNode rewriter.rules node store store' hnext
  rw [Except.map_id, id] at hanswer
  rw [rewrite_eq, Attempt.answer_map, Attempt.final_map, hanswer]
  exact ⟨rfl, hfinal⟩

end Rewriter

/-! ## Runs from different handles -/

namespace Node

theorem at?_moved (shift : Shift) (path : List Nat) (node : Node) :
    (node.moved shift).at? path = (node.at? path).map (moved shift) := by
  induction path generalizing node with
  | nil => rfl
  | cons place rest ih =>
      rw [at?_cons, at?_cons, moved_children, List.getElem?_map]
      cases node.children[place]? with
      | none => rfl
      | some child => exact ih child

/-- Plans that were one plan if the handles from `bound` on had been given out at once: in
each of them they come later by a gap of its own. -/
def EqualUpToNew (bound : Handle) (a b : Node) : Prop :=
  ∃ (common : Node) (gap gap' : Nat),
    a = common.moved ⟨bound, gap⟩ ∧ b = common.moved ⟨bound, gap'⟩

variable {bound : Handle} {a b kept : Node}

/-- Old nodes stand at the same positions. -/
theorem EqualUpToNew.keeps (hab : EqualUpToNew bound a b) (hkept : kept.Below bound)
    (path : List Nat) : (a.at? path).any (·.is kept) = (b.at? path).any (·.is kept) := by
  obtain ⟨common, gap, gap', rfl, rfl⟩ := hab
  have hmoved : ∀ gap, ((common.moved ⟨bound, gap⟩).at? path).any (·.is kept) =
      (common.at? path).any (·.is kept) := by
    intro gap
    rw [at?_moved, Option.any_map]
    congr 1
    funext part
    exact Below.is_moved hkept
  rw [hmoved gap, hmoved gap']

end Node

/-- The same failure, or plans that are equal up to new handles. -/
def AgreeUpToNew (bound : Handle) : Except NodeError Node → Except NodeError Node → Prop
  | .ok a, .ok b => Node.EqualUpToNew bound a b
  | .error fault, .error fault' => fault = fault'
  | _, _ => False

/-- A transformation by uniform rules in turn is, from any later handle, the one from the
bound with the new handles moved up. -/
theorem answer_transformUp_inTurn {rules : List Rule} {node : Node} {bound : Handle}
    (hrules : ∀ rule ∈ rules, rule.Uniform bound) (hnode : node.Below bound)
    {store : Store σ} (hstore : bound ≤ store.next) :
    answer (node.transformUp (Rule.inTurn rules) store) =
      (answer (Rewriter.rewriteNode rules node ⟨bound, []⟩)).map
        (Node.moved ⟨bound, store.next - bound⟩) := by
  let shift : Shift := ⟨bound, store.next - bound⟩
  have hmoved : node.moved shift = node := Node.Below.moved_eq hnode
  have hmeets : shift.MeetsIn (⟨bound, []⟩ : Store Journal) ⟨store.next, []⟩ :=
    ⟨Nat.le_refl _, (Nat.add_sub_cancel' hstore).symm⟩
  obtain ⟨-, hlater⟩ := Rewriter.follows_rewriteNode hrules (Nat.le_refl _ : bound ≤ shift.first)
    node _ _ hmeets
  obtain ⟨-, hanswer⟩ := SameNext.follows_rewriteNode rules node ⟨store.next, []⟩ store rfl
  rw [Except.map_id, id] at hanswer
  rw [hanswer, ← hlater, hmoved]

namespace Session

/-- One pass of a rewriter over a known plan does what the transformation from the leaves up
by its rules in turn does, for all rules that may fail, answer the node they were given as a
changed one or another as an unchanged one.  From the same handles both answer the same. If
the rules are functions of the node, then from any handles both fail alike or answer the same
plan up to the handles that were new, and every older node keeps its place in both or in none;
that the pass has changed nothing means that the transformation answers the node itself. -/
theorem rewriting_transforms_up (rewriter : Rewriter) (node : Node) (store : Store Journal)
    (store' : Store σ) :
    (store'.next = store.next →
      answer (rewriter.rewrite node store) =
          (answer (node.transformUp (Rule.inTurn rewriter.rules) store')).map
            (Rewriter.outcome node) ∧
        (final (node.transformUp (Rule.inTurn rewriter.rules) store')).next =
          (final (rewriter.rewrite node store)).next) ∧
    ∀ session : Session, session.Reached → session.Knows node →
      (∀ rule ∈ rewriter.rules, rule.Uniform session.next) →
      session.next ≤ store.next → session.next ≤ store'.next →
      AgreeUpToNew session.next
          ((answer (rewriter.rewrite node store)).map Outcome.node)
          (answer (node.transformUp (Rule.inTurn rewriter.rules) store')) ∧
        ∀ outcome result, answer (rewriter.rewrite node store) = .ok outcome →
          answer (node.transformUp (Rule.inTurn rewriter.rules) store') = .ok result →
          (∀ kept, session.Knows kept → ∀ path,
            (outcome.node.at? path).any (·.is kept) = (result.at? path).any (·.is kept)) ∧
          (outcome.isChanged = false ↔ result.handle = node.handle) := by
  refine ⟨rewriter.answer_rewrite node, ?_⟩
  intro session hreached hnode hrules hstore hstore'
  have hbelow := hreached.sound.below hnode
  obtain ⟨hrewrite, -⟩ := rewriter.answer_rewrite node (rfl : store.next = store.next)
  rw [hrewrite, answer_transformUp_inTurn hrules hbelow hstore,
    answer_transformUp_inTurn hrules hbelow hstore']
  cases answer (Rewriter.rewriteNode rewriter.rules node ⟨session.next, []⟩) with
  | error fault =>
      refine ⟨rfl, ?_⟩
      intro outcome result houtcome
      cases houtcome
  | ok common =>
      have hequal : Node.EqualUpToNew session.next
          (common.moved ⟨session.next, store.next - session.next⟩)
          (common.moved ⟨session.next, store'.next - session.next⟩) := ⟨common, _, _, rfl, rfl⟩
      simp only [Except.map, AgreeUpToNew, Except.ok.injEq, Rewriter.node_outcome]
      refine ⟨hequal, ?_⟩
      rintro outcome result rfl rfl
      have hkeeps := fun kept (hkept : session.Knows kept) =>
        hequal.keeps (hreached.sound.below hkept)
      rw [Rewriter.node_outcome, Rewriter.isChanged_outcome]
      refine ⟨hkeeps, ?_⟩
      have htop : (common.moved ⟨session.next, store.next - session.next⟩).is node =
          (common.moved ⟨session.next, store'.next - session.next⟩).is node :=
        hkeeps node hnode []
      simpa [Node.is] using htop

end Session

end

open scoped Hints

namespace Session

/-- The sum of a parameter and a column, from handles that are seven apart.  The parameter is
bound; another rule answers each node as a changed one, and a third one the column, as an
unchanged one. -/
theorem rewriting_transforms_up_sum :
    ∃ (session : Session) (sum column : Node) (rewriter : Rewriter) (outcome : Outcome)
      (result : Node),
      session.Reached ∧ session.Knows sum ∧ session.Knows column ∧
      rewriter.ruleNames = ["ParameterSubstitutionRule", "Same", "Column"] ∧
      answer (rewriter.rewrite sum ⟨session.next, []⟩) = .ok outcome ∧
      answer (sum.transformUp (Rule.inTurn rewriter.rules) ⟨session.next + 7, ()⟩) =
        .ok result ∧
      outcome.isChanged = true ∧ result.handle = outcome.node.handle + 7 ∧
      (outcome.node.at? [1]).any (·.is column) = true ∧
      (result.at? [1]).any (·.is column) = true ∧
      result.handle ≠ sum.handle ∧
      AgreeUpToNew session.next (.ok outcome.node) (.ok result) ∧
      answer (rewriter.rewrite sum ⟨session.next, []⟩) =
        (answer (sum.transformUp (Rule.inTurn rewriter.rules) ⟨session.next, ()⟩)).map
          (Rewriter.outcome sum) := by
  let parameter := (Label.parameter "p" .integer).node 0 .empty []
  let column := (Label.column none "c" .integer).node 1 .empty []
  let sum := (Label.binary .add).node 2 .empty [parameter, column]
  have hparameter : Reached ⟨1, [parameter]⟩ := (Reached.start 0).assemble (by simp) rfl
  have hcolumn : Reached ⟨2, [column, parameter]⟩ := hparameter.assemble (by simp) rfl
  let session : Session := ⟨3, [sum, column, parameter]⟩
  have hreached : session.Reached := hcolumn.assemble (by simp) rfl
  have hsum : session.Knows sum := knows_of_mem_held List.mem_cons_self
  have hknown : session.Knows column := knows_of_mem_held (by simp [session])
  let bindings := Bindings.empty.bind "p" (.int 5)
  let same : Rule := ⟨"Same", fun node => pure (.changed node)⟩
  let constantly : Rule := ⟨"Column", fun _ => pure (.unchanged column)⟩
  have hsame : same.Uniform session.next := fun _ _ _ => Follows.pure
  have hconstantly : constantly.Uniform session.next := by
    intro shift node hstart
    have hmoved : column.moved shift = column :=
      ((hreached.sound.below hknown).mono hstart).moved_eq
    have hfollows : Follows shift.Meets (Outcome.moved shift)
        (pure (.unchanged column)) (pure (.unchanged (column.moved shift))) := Follows.pure
    rwa [hmoved] at hfollows
  let rewriter : Rewriter := .ofRules [bindings.rule, same, constantly]
  have hrules : ∀ rule ∈ rewriter.rules, rule.Uniform session.next := by
    simp [rewriter, Rewriter.ofRules, bindings.uniform, hsame, hconstantly]
  let store : Store Journal := ⟨session.next, []⟩
  obtain ⟨outcome, result, hpass, htransformation, hchanged, hhandle, hplace⟩ :
      ∃ outcome result, answer (rewriter.rewrite sum store) = .ok outcome ∧
        answer (sum.transformUp (Rule.inTurn rewriter.rules) ⟨session.next + 7, ()⟩) = .ok result ∧
        outcome.isChanged = true ∧ result.handle = outcome.node.handle + 7 ∧
        (outcome.node.at? [1]).any (·.is column) = true :=
    ⟨_, _, rfl, rfl, rfl, rfl, rfl⟩
  obtain ⟨-, hlater⟩ := rewriting_transforms_up rewriter sum store ⟨session.next + 7, ()⟩
  obtain ⟨hagree, hplaces⟩ := hlater session hreached hsum hrules (Nat.le_refl _)
    (Nat.le_add_right _ _)
  rw [hpass, htransformation] at hagree
  obtain ⟨hkeeps, hown⟩ := hplaces outcome result hpass htransformation
  obtain ⟨hequal, -⟩ := rewriting_transforms_up rewriter sum store ⟨session.next, ()⟩
  have hrenewed : result.handle ≠ sum.handle := by
    rw [ne_eq, ← hown, hchanged]
    decide
  exact ⟨session, sum, column, rewriter, outcome, result, hreached, hsum, hknown, rfl, hpass,
    htransformation, hchanged, hhandle, hplace, hkeeps column hknown [1] ▸ hplace, hrenewed,
    hagree, (hequal rfl).1⟩

end Session

end QueryPlan
