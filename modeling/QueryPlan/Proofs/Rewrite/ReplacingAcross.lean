import Mathlib.Data.List.Lex
import Mathlib.Order.Bounds.Basic
import QueryPlan.Proofs.Annotations.Hints
import QueryPlan.Proofs.Rewrite.ReplacingDownwards

/-!
# Replacing across categories

A scalar cannot stand where a table was, nor a table where a scalar was.  A pass of a
replacement by a node of the other category notices that when it rebuilds the parent.  Up to
then it has changed nothing: whatever is left of the first part that is the same as the target
was answered as it stood, and nothing below that part is the same as the target.
-/

namespace QueryPlan

section

variable [ForeignTypes]

open Session

/-! ## Where a visit of children fails -/

namespace Node

variable {σ : Type} {change : Node → Work σ Node} {store later : Store σ}

theorem visitFrom_cons_of_error {child : Node} {fault : NodeError}
    (hchild : change child store = .error fault later) (label : Label) (place : Nat)
    (rest : List Node) :
    visitFrom change label place (child :: rest) store = .error fault later := by
  rw [visitFrom, Attempt.bind_of_eq_error hchild]

theorem visitFrom_cons_of_misfit {child changed : Node} {label : Label} {place : Nat}
    (hchild : change child store = .ok changed later)
    (hcategory : changed.category ≠ label.slotCategory place) (rest : List Node) :
    visitFrom change label place (child :: rest) store =
      .error (.wrongCategory label.kind (label.slotCategory place) changed.kind) later := by
  rw [visitFrom, Attempt.bind_of_eq_ok hchild, expect_eq_error hcategory]
  rfl

/-- A fault at a child comes through if all children before it stay. -/
theorem WellFormed.visitChildren_of_error {node child : Node} {before after : List Node}
    {fault : NodeError} (hnode : node.WellFormed)
    (hchildren : node.children = before ++ child :: after)
    (hbefore : ∀ other ∈ before, change other = pure other)
    (hfault : visitFrom change node.label before.length (child :: after) store =
      .error fault later) :
    node.visitChildren change store = .error fault later := by
  have hcategories : node.label.checkCategories 0 before = .ok () := by
    refine (node.label.checkCategories_eq_ok_iff 0 before).mpr fun place other hother => ?_
    rw [Nat.zero_add]
    apply hnode.categories
    rw [hchildren, List.getElem?_append_left (List.getElem?_eq_some_iff.mp hother).1, hother]
  rw [visitChildren, hchildren, visitFrom_append_of_pure node.label 0 hbefore hcategories,
    Nat.zero_add, bind_map_left]
  exact Attempt.bind_of_eq_error hfault

end Node

namespace Replacement

variable {rule : Replacement} {node : Node}

/-! ## The leftmost part to be replaced -/

/-- The target does not stand in the plan. -/
def Absent (rule : Replacement) (node : Node) : Prop :=
  ∀ part ∈ node.preorder, part.same rule.target = false

/-- The position of the leftmost part below the top that is the same as the target.  The
positions are ordered as in a dictionary. -/
def LeftmostBelow (rule : Replacement) (node : Node) (path : List Nat) : Prop :=
  IsLeast {position | position ≠ [] ∧ rule.OccursAt position node} path

instance (rule : Replacement) (node : Node) : Decidable (rule.Absent node) :=
  inferInstanceAs (Decidable (∀ part ∈ node.preorder, part.same rule.target = false))

theorem absent_iff : rule.Absent node ↔
    node.same rule.target = false ∧ ∀ child ∈ node.children, rule.Absent child :=
  Node.forall_mem_preorder_iff

theorem Absent.not_occursAt (habsent : rule.Absent node) (path : List Nat) :
    ¬ rule.OccursAt path node := by
  rintro ⟨part, hpart, hsame⟩
  rw [habsent part (Node.mem_preorder_of_at? hpart)] at hsame
  cases hsame

section Leftmost

variable {child : Node} {before after : List Node}
  (hchildren : node.children = before ++ child :: after)
  (hbefore : ∀ other ∈ before, rule.Absent other)
include hchildren

theorem occursAt_length_cons_iff {rest : List Nat} :
    rule.OccursAt (before.length :: rest) node ↔ rule.OccursAt rest child := by
  rw [occursAt_cons_iff, hchildren, List.getElem?_append_right (Nat.le_refl _), Nat.sub_self]
  simp

include hbefore

/-- The first child in which the target stands comes before all other parts that are the same
as the target. -/
theorem leftmostBelow_cons {path : List Nat} (hpath : rule.OccursAt path child)
    (hleast : ∀ position, rule.OccursAt position child → path ≤ position) :
    rule.LeftmostBelow node (before.length :: path) := by
  refine ⟨⟨List.cons_ne_nil _ _, (occursAt_length_cons_iff hchildren).mpr hpath⟩, ?_⟩
  rintro position ⟨hposition, hoccurs⟩
  obtain ⟨place, rest, rfl⟩ := List.exists_cons_of_ne_nil hposition
  obtain ⟨other, hother, hrest⟩ := occursAt_cons_iff.mp hoccurs
  rcases Nat.lt_trichotomy place before.length with hplace | rfl | hplace
  · rw [hchildren, List.getElem?_append_left hplace] at hother
    exact absurd hrest ((hbefore other (List.mem_of_getElem? hother)).not_occursAt rest)
  · exact List.cons_le_cons _
      (hleast rest ((occursAt_length_cons_iff hchildren).mp hoccurs))
  · exact le_of_lt (List.Lex.rel hplace)

end Leftmost

/-- The first child in which the target stands, between the others. -/
theorem exists_first_child (hnode : ¬ ∀ child ∈ node.children, rule.Absent child) :
    ∃ before child after, node.children = before ++ child :: after ∧
      (∀ other ∈ before, rule.Absent other) ∧ ¬ rule.Absent child := by
  cases hfind : node.children.find? fun child => ¬ rule.Absent child with
  | none =>
      rw [List.find?_eq_none] at hfind
      exact absurd (by simpa using hfind) hnode
  | some child =>
      obtain ⟨hchild, before, after, hchildren, hbefore⟩ :=
        List.find?_eq_some_iff_append.mp hfind
      exact ⟨before, child, after, hchildren, by simpa using hbefore, by simpa using hchild⟩

/-! ## The pass -/

section Pass

variable {session : Session} (hsound : session.Sound) (hnode : session.Knows node)
include hsound hnode

theorem rewriteNode_of_absent (habsent : rule.Absent node) :
    Rewriter.rewriteNode [rule.rule] node = pure node := by
  apply Rewriter.rewriteNode_of_leaves (hsound.whole hnode)
  intro part hpart other hother
  rw [List.mem_singleton.mp hother]
  exact leaves_of_kept fun hsame => by rw [habsent part hpart] at hsame; cases hsame

variable (htarget : session.Knows rule.target) (hreplacement : session.Knows rule.replacement)
  (hcategories : rule.target.category ≠ rule.replacement.category)
include htarget

theorem category_of_same (hsame : node.same rule.target = true) :
    node.category = rule.target.category :=
  congrArg Kind.category (hsound.kind_eq hnode htarget hsame)

include hreplacement hcategories

theorem handle_ne_of_same (hsame : node.same rule.target = true) :
    node.handle ≠ rule.replacement.handle := by
  intro hhandle
  have heq := hsound.coherent node rule.replacement hnode hreplacement hhandle
  rw [← category_of_same hsound hnode htarget hsame, heq] at hcategories
  exact hcategories rfl

theorem exists_rewriteNode_of_same (hsame : node.same rule.target = true)
    (store : Store Journal) :
    ∃ later, Rewriter.rewriteNode [rule.rule] node store = .ok rule.replacement later := by
  have hvisited : node.visitChildren (Rewriter.rewriteNode [rule.rule]) = pure node := by
    apply (hsound.wellFormed node hnode).visitChildren_of_pure
    intro child hchild
    exact rewriteNode_of_absent hsound (hnode.child hchild) fun part hpart =>
      not_same_of_mem_children hsound hnode htarget hsame hchild hpart
  have hne := handle_ne_of_same hsound hnode htarget hreplacement hcategories hsame
  have happly : rule.rule.apply node = pure (.changed rule.replacement) := by
    simp [Replacement.rule, apply, hsame, Node.is, hne]
  rw [Rewriter.rewriteNode_eq, hvisited, pure_bind, Rewriter.applyRules, happly]
  exact ⟨_, rfl⟩

/-- A pass over a plan with the target below its top fails at the leftmost part that is the
same as it, in the name of its parent. -/
theorem exists_rewriteNode_eq_error (hbelow : ¬ ∀ child ∈ node.children, rule.Absent child)
    (store : Store Journal) :
    ∃ path place parent later, rule.LeftmostBelow node (path ++ [place]) ∧
      node.at? path = some parent ∧
      Rewriter.rewriteNode [rule.rule] node store =
        .error (.wrongCategory parent.kind rule.target.category rule.replacement.kind)
          later := by
  induction node using Node.inductionOn generalizing store with
  | step node ih =>
      obtain ⟨before, child, after, hchildren, hbefore, hchild⟩ := exists_first_child hbelow
      have hplace : node.children[before.length]? = some child := by
        rw [hchildren, List.getElem?_append_right (Nat.le_refl _), Nat.sub_self]
        rfl
      have hmem := List.mem_of_getElem? hplace
      have hwell := hsound.wellFormed node hnode
      have hstays : ∀ other ∈ before,
          Rewriter.rewriteNode [rule.rule] other = pure other := by
        intro other hother
        have hother' : other ∈ node.children := hchildren ▸ List.mem_append_left _ hother
        exact rewriteNode_of_absent hsound (hnode.child hother') (hbefore other hother)
      by_cases hsame : child.same rule.target = true
      · obtain ⟨later, hrun⟩ := exists_rewriteNode_of_same hsound (hnode.child hmem) htarget
          hreplacement hcategories hsame store
        have hslot : node.label.slotCategory before.length = rule.target.category := by
          rw [← hwell.categories before.length child hplace]
          exact category_of_same hsound (hnode.child hmem) htarget hsame
        have hmisfit : rule.replacement.category ≠ node.label.slotCategory before.length :=
          hslot ▸ hcategories.symm
        have hfault := Node.visitFrom_cons_of_misfit hrun hmisfit after
        refine ⟨[], before.length, node, later, ?_, rfl, ?_⟩
        · exact leftmostBelow_cons hchildren hbefore (occursAt_nil_iff.mpr hsame)
            fun position _ => not_lt.mp (List.not_lt_nil position)
        · rw [Rewriter.rewriteNode_eq, ← hslot]
          exact Attempt.bind_of_eq_error (hwell.visitChildren_of_error hchildren hstays hfault)
      · have hinner : ¬ ∀ other ∈ child.children, rule.Absent other := by
          intro habsent
          exact hchild (absent_iff.mpr ⟨by simpa using hsame, habsent⟩)
        obtain ⟨path, place, parent, later, ⟨⟨-, hpath⟩, hleast⟩, hparent, hrun⟩ :=
          ih child hmem (hnode.child hmem) hinner store
        refine ⟨before.length :: path, place, parent, later, ?_, ?_, ?_⟩
        · refine leftmostBelow_cons hchildren hbefore hpath fun position hposition => ?_
          apply hleast
          refine ⟨?_, hposition⟩
          rintro rfl
          exact hsame (occursAt_nil_iff.mp hposition)
        · exact Node.at?_cons_eq_some_iff.mpr ⟨child, hplace, hparent⟩
        · rw [Rewriter.rewriteNode_eq]
          exact Attempt.bind_of_eq_error (hwell.visitChildren_of_error hchildren hstays
            (Node.visitFrom_cons_of_error hrun node.label before.length after))

/-- A pass over a plan with the target nowhere below its top. -/
theorem answer_rewriteNode_of_absent_below
    (hbelow : ∀ child ∈ node.children, rule.Absent child) (store : Store Journal) :
    (answer (Rewriter.rewriteNode [rule.rule] node store)).map (Rewriter.outcome node) =
      .ok (if node.same rule.target then .changed rule.replacement else .unchanged node) := by
  by_cases hsame : node.same rule.target = true
  · obtain ⟨later, hrun⟩ := exists_rewriteNode_of_same hsound hnode htarget hreplacement
      hcategories hsame store
    have hne := handle_ne_of_same hsound hnode htarget hreplacement hcategories hsame
    rw [hrun, if_pos hsame]
    simp [answer, Except.map, Rewriter.outcome, Node.is, hne.symm]
  · have habsent : rule.Absent node := absent_iff.mpr ⟨by simpa using hsame, hbelow⟩
    rw [rewriteNode_of_absent hsound hnode habsent, if_neg hsame]
    exact congrArg Except.ok (Rewriter.outcome_self node)

end Pass

end Replacement

/-- One pass of a replacement by a node of the other category fails exactly when a part below
the top of the plan is the same as the target.  It then names the parent of the leftmost such
part and the replacement.  Otherwise it answers the replacement for a plan that is the same as
the target, and any other plan as it stands. -/
theorem replacing_across_categories {session : Session} (hreached : session.Reached)
    {node : Node} (hnode : session.Knows node) {rule : Replacement}
    (htarget : session.Knows rule.target) (hreplacement : session.Knows rule.replacement)
    (hcategories : rule.target.category ≠ rule.replacement.category) {rewriter : Rewriter}
    (hrules : rewriter.rules = [rule.rule]) (store : Store Journal) :
    ((∃ fault, answer (rewriter.rewrite node store) = .error fault) ↔
      ∃ child ∈ node.children, ∃ part ∈ child.preorder, part.same rule.target = true) ∧
    (∀ fault, answer (rewriter.rewrite node store) = .error fault →
      ∃ path place parent, rule.LeftmostBelow node (path ++ [place]) ∧
        node.at? path = some parent ∧
        fault = .wrongCategory parent.kind rule.target.category rule.replacement.kind) ∧
    ((∀ child ∈ node.children, ∀ part ∈ child.preorder, part.same rule.target = false) →
      answer (rewriter.rewrite node store) =
        .ok (if node.same rule.target then .changed rule.replacement
          else .unchanged node)) := by
  have hsound := hreached.sound
  have hpass : answer (rewriter.rewrite node store) =
      (answer (Rewriter.rewriteNode [rule.rule] node store)).map (Rewriter.outcome node) := by
    rw [Rewriter.rewrite_eq, Attempt.answer_map, hrules]
  rw [hpass]
  by_cases hbelow : ∀ child ∈ node.children, rule.Absent child
  · have hanswer := Replacement.answer_rewriteNode_of_absent_below hsound hnode htarget
      hreplacement hcategories hbelow store
    rw [hanswer]
    refine ⟨⟨by simp, ?_⟩, by simp, fun _ => rfl⟩
    rintro ⟨child, hchild, part, hpart, hsame⟩
    rw [hbelow child hchild part hpart] at hsame
    cases hsame
  · obtain ⟨path, place, parent, later, hleftmost, hparent, hrun⟩ :=
      Replacement.exists_rewriteNode_eq_error hsound hnode htarget hreplacement hcategories
        hbelow store
    rw [hrun]
    refine ⟨⟨fun _ => ?_, fun _ => ⟨_, rfl⟩⟩, ?_, fun habsent => absurd habsent hbelow⟩
    · simpa [Replacement.Absent] using hbelow
    · rintro fault hfault
      cases hfault
      exact ⟨path, place, parent, hleftmost, hparent, rfl⟩

end

open Session
open scoped Hints

/-- A parameter that stands below a negation and again beside it, as another node.  A table
cannot stand for it in the predicate of a join, and the negation is named; it can stand for
the parameter alone. -/
theorem replacing_across_categories_predicate :
    ∃ (session : Session) (join flag table : Node) (rule : Replacement) (rewriter : Rewriter),
      session.Reached ∧ session.Knows join ∧ rule.target = flag ∧ rule.replacement = table ∧
      flag.category ≠ table.category ∧
      rule.OccursAt [1, 0, 0] join ∧ rule.OccursAt [1, 1] join ∧
      answer (rewriter.rewrite join ⟨session.next, []⟩) =
        .error (.wrongCategory .unary .scalar .table) ∧
      (∃ path place parent, rule.LeftmostBelow join (path ++ [place]) ∧
        join.at? path = some parent ∧ parent.kind = .unary) ∧
      answer (rewriter.rewrite flag ⟨session.next, []⟩) = .ok (.changed table) ∧
      answer (rewriter.rewrite table ⟨session.next, []⟩) = .ok (.unchanged table) := by
  let flag := (Label.parameter "p" .boolean).node 0 .empty []
  let other := (Label.parameter "p" .boolean).node 1 .empty []
  let negation := (Label.unary .not).node 2 .empty [flag]
  let both := (Label.binary .and).node 3 .empty [negation, other]
  let table := (Label.table "t" none none).node 4 .empty []
  let join := (Label.joinOn .inner).node 5 .empty [table, both]
  have hflag : Reached ⟨1, [flag]⟩ := (Reached.start 0).assemble (by simp) rfl
  have hother : Reached ⟨2, [other, flag]⟩ := hflag.assemble (by simp) rfl
  have hnegation : Reached ⟨3, [negation, other, flag]⟩ := hother.assemble (by simp) rfl
  have hboth : Reached ⟨4, [both, negation, other, flag]⟩ :=
    hnegation.assemble (by simp) rfl
  have htable : Reached ⟨5, [table, both, negation, other, flag]⟩ :=
    hboth.assemble (by simp) rfl
  let session : Session := ⟨6, [join, table, both, negation, other, flag]⟩
  have hreached : session.Reached := htable.assemble (by simp) rfl
  have hknown : ∀ node ∈ session.held, session.Knows node :=
    fun node hnode => knows_of_mem_held hnode
  let rule : Replacement := ⟨flag, table⟩
  let rewriter : Rewriter := .ofRules [rule.rule]
  have hpasses : ∀ node ∈ session.held, _ := fun node hnode =>
    replacing_across_categories hreached (hknown node hnode)
      (hknown flag (by simp [session])) (hknown table (by simp [session]))
      (show rule.target.category ≠ rule.replacement.category by decide)
      (show rewriter.rules = [rule.rule] from rfl) ⟨session.next, []⟩
  have hfault : answer (rewriter.rewrite join ⟨session.next, []⟩) =
      .error (.wrongCategory .unary .scalar .table) := rfl
  obtain ⟨-, hnames, -⟩ := hpasses join (by simp [session])
  obtain ⟨path, place, parent, hleftmost, hparent, hkinds⟩ := hnames _ hfault
  have hkind : parent.kind = .unary := by
    injection hkinds with hkind
    exact hkind.symm
  obtain ⟨-, -, hreplaced⟩ := hpasses flag (by simp [session])
  obtain ⟨-, -, hkept⟩ := hpasses table (by simp [session])
  exact ⟨session, join, flag, table, rule, rewriter, hreached, hknown join (by simp [session]),
    rfl, rfl, by decide, ⟨flag, rfl, by decide⟩, ⟨other, rfl, by decide⟩, hfault,
    ⟨path, place, parent, hleftmost, hparent, hkind⟩, hreplaced (by simp [flag]),
    hkept (by simp [table])⟩

end QueryPlan
