import QueryPlan.Proofs.Annotations.Hints
import QueryPlan.Proofs.Node.Positions
import QueryPlan.Proofs.Rewrite.Reallocation
import QueryPlan.Proofs.Rewrite.Replacing

/-!
# Replacing from the root down

From the root down a replacement is looked at again below its top, so going down comes to
an end only if the target does not stand there.  Then the levels that are needed are no
more than the nodes of the plan and of the replacement, and the result is a substitution
made everywhere at once.

Two parts that are both the same as the target never overlap, since a plan is larger than
its parts.  So it is settled by the given plan alone at which positions the replacement
comes to stand; everywhere else the nodes are those of the plan, rebuilt above a replacement
and kept where there is none below.
-/

namespace QueryPlan

/-! ## No fault of the depth -/

/-- An action that does not fail for want of depth. -/
def NeedsNoDepth {σ α : Type} (action : Work σ α) : Prop :=
  ∀ store, answer (action store) ≠ .error .depthExhausted

namespace NeedsNoDepth

variable {σ : Type}

theorem pure {α : Type} (value : α) : NeedsNoDepth (Pure.pure value : Work σ α) :=
  fun _ hfault => by cases hfault

theorem bind {α β : Type} {action : Work σ α} {rest : α → Work σ β}
    (haction : NeedsNoDepth action) (hrest : ∀ value, NeedsNoDepth (rest value)) :
    NeedsNoDepth (action >>= rest) := by
  intro store
  have hstore := haction store
  change answer (EStateM.bind action rest store) ≠ .error .depthExhausted
  unfold EStateM.bind
  cases hrun : action store with
  | ok value later => exact hrest value later
  | error fault later =>
      rw [hrun] at hstore
      simpa [answer] using hstore

end NeedsNoDepth

section

variable [ForeignTypes]

open Session

theorem Label.checkParts_ne_depthExhausted (label : Label) (children : List Node) :
    label.checkParts children ≠ .error .depthExhausted := by
  intro hfault
  unfold checkParts checkCount at hfault
  split at hfault
  · unfold checkPredicate at hfault
    split at hfault
    · split at hfault <;> cases hfault
    · cases hfault
  · cases hfault

variable {σ : Type}

namespace NeedsNoDepth

theorem expect (node : Node) (parent : Kind) (category : Category) :
    NeedsNoDepth (Attempt.ofExcept (node.expect parent category) : Work σ Node) := by
  intro store hfault
  unfold Node.expect at hfault
  split at hfault <;> cases hfault

theorem update (node : Node) (children : List Node) :
    NeedsNoDepth (Work.ofBuild (node.update children) : Work σ Node) := by
  intro store
  unfold Work.ofBuild Node.update
  by_cases hare : Node.areAll children node.children = true
  · simp [hare, Pure.pure, EStateM.pure, answer]
  · rw [if_neg hare, Node.compose_eq]
    cases hparts : node.label.checkParts children with
    | ok => simp [answer]
    | error fault =>
        have hfault := node.label.checkParts_ne_depthExhausted children
        rw [hparts] at hfault
        simpa [answer] using hfault

theorem visitFrom {change : Node → Work σ Node} (label : Label) (place : Nat)
    {children : List Node} (hchange : ∀ child ∈ children, NeedsNoDepth (change child)) :
    NeedsNoDepth (Node.visitFrom change label place children) := by
  induction children generalizing place with
  | nil => exact pure []
  | cons child rest ih =>
      obtain ⟨hchild, hrest⟩ := List.forall_mem_cons.mp hchange
      refine hchild.bind fun changed => (expect changed _ _).bind fun _ => ?_
      exact (ih (place + 1) hrest).bind fun news => pure (changed :: news)

end NeedsNoDepth

namespace Replacement

variable {rule : Replacement} {old new node : Node}

def operation (rule : Replacement) (node : Node) : Work σ Outcome :=
  rule.apply node

mutual

/-- The plan with the replacement for each part that is the same as the target. -/
def substitute (rule : Replacement) (node : Node) : Work σ Node :=
  match node with
  | ⟨_, label, _, _, children⟩ =>
      if node.same rule.target then pure rule.replacement
      else do
        let children ← substituteAll rule label 0 children
        node.update children

def substituteAll (rule : Replacement) (label : Label) (place : Nat) :
    List Node → Work σ (List Node)
  | [] => pure []
  | child :: rest => do
      let changed ← substitute rule child
      let _ ← Attempt.ofExcept (changed.expect label.kind (label.slotCategory place))
      return changed :: (← substituteAll rule label (place + 1) rest)

end

theorem substituteAll_eq_visitFrom (rule : Replacement) (label : Label) (place : Nat)
    (children : List Node) :
    (substituteAll rule label place children : Work σ (List Node)) =
      Node.visitFrom rule.substitute label place children := by
  induction children generalizing place with
  | nil => rfl
  | cons child rest ih => simp only [substituteAll, Node.visitFrom, ih]

theorem substitute_eq (rule : Replacement) (node : Node) :
    (rule.substitute node : Work σ Node) =
      if node.same rule.target then pure rule.replacement
      else node.visitChildren rule.substitute := by
  cases node with
  | mk handle label type annotations children =>
      simp only [substitute, Node.visitChildren, substituteAll_eq_visitFrom]

/-! ## Going down comes to an end -/

theorem operation_of_not_same (hsame : node.same rule.target = false) :
    (rule.operation node : Work σ Outcome) = pure (.unchanged node) := by
  simp only [operation, apply, hsame]
  rfl

theorem exists_operation_eq {session : Session} (hsound : session.Sound)
    (hnode : session.Knows node) (hreplacement : session.Knows rule.replacement)
    (hsame : node.same rule.target = true) :
    ∃ outcome : Outcome, outcome.node = rule.replacement ∧
      (rule.operation node : Work σ Outcome) = pure outcome := by
  simp only [operation, apply, hsame]
  cases his : node.is rule.replacement with
  | true =>
      -- The replacement stood there already and is answered as unchanged.
      have heq : node = rule.replacement :=
        hsound.coherent node rule.replacement hnode hreplacement (by simpa [Node.is] using his)
      exact ⟨.unchanged node, heq, rfl⟩
  | false => exact ⟨.changed rule.replacement, rfl, rfl⟩

theorem transformDown_of_not_same (hnode : node.Whole)
    (hparts : ∀ part ∈ node.preorder, part.same rule.target = false) {depth : Nat}
    (hdepth : node.preorder.length ≤ depth) :
    (node.transformDown rule.operation depth : Work σ Node) = pure node := by
  induction node using Node.inductionOn generalizing depth with
  | step node ih =>
      obtain ⟨hwell, hwholes⟩ := Node.whole_iff.mp hnode
      obtain ⟨hself, hchildren⟩ := Node.forall_mem_preorder_iff.mp hparts
      have hpositive : 0 < node.preorder.length := List.length_pos_of_mem node.mem_preorder_self
      obtain ⟨depth, rfl⟩ : ∃ less, depth = less + 1 := ⟨depth - 1, by omega⟩
      rw [Node.transformDown, operation_of_not_same hself, pure_bind]
      apply hwell.visitChildren_of_pure
      intro child hchild
      have hlength := Node.length_preorder_lt_of_mem_children hchild
      exact ih child hchild (hwholes child hchild) (hchildren child hchild) (by omega)

theorem Unnested.transformDown_of_same (hunnested : rule.Unnested) {session : Session}
    (hsound : session.Sound) (hnode : session.Knows node)
    (hreplacement : session.Knows rule.replacement) (hsame : node.same rule.target = true)
    {depth : Nat} (hdepth : rule.replacement.preorder.length ≤ depth) :
    (node.transformDown rule.operation depth : Work σ Node) = pure rule.replacement := by
  obtain ⟨hwell, hwholes⟩ := Node.whole_iff.mp (hsound.whole hreplacement)
  have hpositive : 0 < rule.replacement.preorder.length :=
    List.length_pos_of_mem rule.replacement.mem_preorder_self
  obtain ⟨depth, rfl⟩ : ∃ less, depth = less + 1 := ⟨depth - 1, by omega⟩
  obtain ⟨outcome, houtcome, hoperation⟩ :=
    exists_operation_eq (σ := σ) hsound hnode hreplacement hsame
  rw [Node.transformDown, hoperation, pure_bind, houtcome]
  -- What was put in is gone through again, and nothing below its top is replaced.
  apply hwell.visitChildren_of_pure
  intro child hchild
  have hlength := Node.length_preorder_lt_of_mem_children hchild
  exact transformDown_of_not_same (hwholes child hchild) (hunnested child hchild) (by omega)

/-- Each level takes a node of the plan, until the replacement stands there; it takes as many
more as the replacement has nodes. -/
theorem Unnested.transformDown_eq_substitute (hunnested : rule.Unnested) {session : Session}
    (hsound : session.Sound) (hnode : session.Knows node)
    (hreplacement : session.Knows rule.replacement) {depth : Nat}
    (hdepth : node.preorder.length + rule.replacement.preorder.length ≤ depth) :
    (node.transformDown rule.operation depth : Work σ Node) = rule.substitute node := by
  induction node using Node.inductionOn generalizing depth with
  | step node ih =>
      rw [substitute_eq]
      cases hsame : node.same rule.target with
      | true =>
          exact hunnested.transformDown_of_same hsound hnode hreplacement hsame (by omega)
      | false =>
          have hpositive : 0 < node.preorder.length :=
            List.length_pos_of_mem node.mem_preorder_self
          obtain ⟨depth, rfl⟩ : ∃ less, depth = less + 1 := ⟨depth - 1, by omega⟩
          have hchildren : ∀ child ∈ node.children,
              (child.transformDown rule.operation depth : Work σ Node) =
                rule.substitute child := by
            intro child hchild
            have hlength := Node.length_preorder_lt_of_mem_children hchild
            exact ih child hchild (hnode.child hchild) (by omega)
          rw [Node.transformDown, operation_of_not_same hsame, pure_bind]
          simp only [Outcome.node, Node.visitChildren,
            Node.visitFrom_congr node.label 0 hchildren]
          rfl

theorem needsNoDepth_substitute (rule : Replacement) (node : Node) :
    NeedsNoDepth (rule.substitute node : Work σ Node) := by
  induction node using Node.inductionOn with
  | step node ih =>
      rw [substitute_eq]
      split
      · exact .pure _
      · exact (NeedsNoDepth.visitFrom node.label 0 ih).bind fun children =>
          .update node children

/-! ## Where the target stands -/

/-- A part that is the same as the target stands at a position. -/
def OccursAt (rule : Replacement) (path : List Nat) (node : Node) : Prop :=
  ∃ part, node.at? path = some part ∧ part.same rule.target = true

theorem occursAt_nil_iff : rule.OccursAt [] node ↔ node.same rule.target = true := by
  simp [OccursAt]

theorem occursAt_cons_iff {place : Nat} {rest : List Nat} :
    rule.OccursAt (place :: rest) node ↔
      ∃ child, node.children[place]? = some child ∧ rule.OccursAt rest child := by
  constructor
  · rintro ⟨part, hpart, hsame⟩
    obtain ⟨child, hchild, hpart⟩ := Node.at?_cons_eq_some_iff.mp hpart
    exact ⟨child, hchild, part, hpart, hsame⟩
  · rintro ⟨child, hchild, part, hpart, hsame⟩
    exact ⟨part, Node.at?_cons_eq_some_iff.mpr ⟨child, hchild, hpart⟩, hsame⟩

section Occurrences

variable {session : Session} (hsound : session.Sound) (hnode : session.Knows node)
  (htarget : session.Knows rule.target)
include hsound hnode htarget

theorem not_same_of_mem_children (hsame : node.same rule.target = true) {child part : Node}
    (hchild : child ∈ node.children) (hpart : part ∈ child.preorder) :
    part.same rule.target = false := by
  by_contra hpartSame
  rw [Bool.not_eq_false] at hpartSame
  -- Both would have as many parts as the target, but one stands below the other.
  have hlength := hsound.length_preorder_eq_of_same hnode htarget hsame
  have hpartLength :=
    hsound.length_preorder_eq_of_same ((hnode.child hchild).part hpart) htarget hpartSame
  have hless := Node.length_preorder_lt_of_mem_children hchild
  have hle := Node.length_preorder_le_of_mem_preorder hpart
  omega

theorem eq_nil_of_occursAt (hsame : node.same rule.target = true) {path : List Nat}
    (hoccurs : rule.OccursAt path node) : path = [] := by
  cases path with
  | nil => rfl
  | cons place rest =>
      obtain ⟨child, hchild, part, hpart, hpartSame⟩ := occursAt_cons_iff.mp hoccurs
      rw [not_same_of_mem_children hsound hnode htarget hsame (List.mem_of_getElem? hchild)
        (Node.mem_preorder_of_at? hpart)] at hpartSame
      cases hpartSame

/-- Occurrences never overlap. -/
theorem eq_nil_of_occursAt_append {path rest : List Nat} (hpath : rule.OccursAt path node)
    (hrest : rule.OccursAt (path ++ rest) node) : rest = [] := by
  obtain ⟨part, hpart, hsame⟩ := hpath
  obtain ⟨inner, hinner, hinnerSame⟩ := hrest
  rw [Node.at?_append, hpart] at hinner
  exact eq_nil_of_occursAt hsound (hnode.part (Node.mem_preorder_of_at? hpart)) htarget hsame
    ⟨inner, hinner, hinnerSame⟩

end Occurrences

/-! ## Substitution at all occurrences -/

/-- What stands in the place of a node that is not replaced, and where nothing above is:
the node over new children, or the node itself if it has no occurrence below. -/
structure Carries (rule : Replacement) (old new : Node) : Prop where
  label : new.label = old.label
  annotations : new.annotations = old.annotations
  length : new.children.length = old.children.length
  kept : (∀ part ∈ old.preorder, part.same rule.target = false) → new = old

/-- The new plan is the old one with the replacement at all occurrences. -/
structure Substituted (rule : Replacement) (old new : Node) : Prop where
  replaced : ∀ path, rule.OccursAt path old → new.at? path = some rule.replacement
  carried : ∀ path, (∀ above, above <+: path → ¬ rule.OccursAt above old) →
    Option.Rel rule.Carries (old.at? path) (new.at? path)

theorem Substituted.carries (hnew : rule.Substituted old new)
    (hsame : old.same rule.target = false) : rule.Carries old new := by
  have hroot : ∀ above, above <+: [] → ¬ rule.OccursAt above old := by
    intro above habove hoccurs
    rw [List.prefix_nil.mp habove, occursAt_nil_iff, hsame] at hoccurs
    cases hoccurs
  cases hnew.carried [] hroot with
  | some hcarries => exact hcarries

theorem substituted_of_same {session : Session} (hsound : session.Sound)
    (hnode : session.Knows node) (htarget : session.Knows rule.target)
    (hsame : node.same rule.target = true) : rule.Substituted node rule.replacement where
  replaced path hoccurs := by
    rw [eq_nil_of_occursAt hsound hnode htarget hsame hoccurs]
    rfl
  carried path habove :=
    absurd (occursAt_nil_iff.mpr hsame) (habove [] List.nil_prefix)

theorem eq_of_forall₂_substituted {olds news : List Node}
    (hnews : List.Forall₂ rule.Substituted olds news)
    (hparts : ∀ old ∈ olds, ∀ part ∈ old.preorder, part.same rule.target = false) :
    news = olds := by
  induction hnews with
  | nil => rfl
  | @cons old new _ _ hnew _ ih =>
      obtain ⟨hold, holds⟩ := List.forall_mem_cons.mp hparts
      have hself := hold old old.mem_preorder_self
      rw [(hnew.carries hself).kept hold, ih holds]

theorem substituted_of_children (hsame : old.same rule.target = false)
    (hlabel : new.label = old.label) (hannotations : new.annotations = old.annotations)
    (hchildren : List.Forall₂ rule.Substituted old.children new.children)
    (hkept : new.children = old.children → new = old) : rule.Substituted old new where
  replaced path hoccurs := by
    cases path with
    | nil =>
        rw [occursAt_nil_iff, hsame] at hoccurs
        cases hoccurs
    | cons place rest =>
        obtain ⟨child, hchild, hoccurs⟩ := occursAt_cons_iff.mp hoccurs
        have hrow := rel_getElem?_of_forall₂ hchildren place
        rw [hchild] at hrow
        obtain ⟨newChild, hnewChild, hsubstituted⟩ := exists_of_rel_some hrow
        exact Node.at?_cons_eq_some_iff.mpr
          ⟨newChild, hnewChild, hsubstituted.replaced rest hoccurs⟩
  carried path habove := by
    cases path with
    | nil =>
        refine .some ⟨hlabel, hannotations, hchildren.length_eq.symm, ?_⟩
        intro hparts
        obtain ⟨-, hparts⟩ := Node.forall_mem_preorder_iff.mp hparts
        exact hkept (eq_of_forall₂_substituted hchildren hparts)
    | cons place rest =>
        refine Node.rel_at?_cons hchildren fun child newChild hchild hsubstituted => ?_
        apply hsubstituted.carried rest
        intro above hprefix hoccurs
        exact habove (place :: above) (List.cons_prefix_cons.mpr ⟨rfl, hprefix⟩)
          (occursAt_cons_iff.mpr ⟨child, hchild, hoccurs⟩)

theorem leads_substitute {base : Session} (htarget : base.Knows rule.target)
    (hreplacement : base.Knows rule.replacement) {session : Session}
    (hnode : session.Knows node) :
    Leads (fun store : Store σ => base.ReachedFrom store.next) session
      (rule.substitute node) fun result later =>
        AnswersKnown ([·]) result later ∧
          ∀ new, result = .ok new → rule.Substituted node new := by
  induction node using Node.inductionOn generalizing session with
  | step node ih =>
      rw [substitute_eq]
      cases hsame : node.same rule.target with
      | true =>
          apply Leads.goesWith
          rintro store ⟨hreached, -, hextends⟩
          refine Leads.pure ⟨?_, ?_⟩
          · simpa [AnswersKnown] using hextends _ hreplacement
          · rintro new ⟨⟩
            exact substituted_of_same hreached.sound hnode (hextends _ htarget) hsame
      | false =>
          refine Leads.bind (leads_visitFrom_related node.label
            (fun child hchild session hknown => ih child hchild hknown) 0
            (fun child hchild => hnode.child hchild)) ?_ (fun _ _ _ _ => ⟨trivial, by simp⟩)
          rintro news later hlater ⟨⟨hknown, hcategories⟩, hrelated⟩
          refine Leads.ofBuild fun own => (leads_update_rebuilt (fun _ _ hgoes => hgoes.1)
            (fun _ _ hgoes => hgoes.2.1) (rebuilds_reachedFrom base) (hlater node hnode) hknown
            hcategories).mono ?_
          rintro result last - hrebuilt
          cases result with
          | error fault => exact ⟨trivial, by simp⟩
          | ok rebuilt =>
              obtain ⟨hrebuiltKnown, hlabel, hannotations, rfl, hkept, -⟩ := hrebuilt
              refine ⟨by simpa [AnswersKnown] using hrebuiltKnown, ?_⟩
              rintro new ⟨⟩
              exact substituted_of_children hsame hlabel hannotations
                (hrelated _ rfl) hkept

end Replacement

/-- Going down with an unnested replacement over a known plan comes to an end: from some
depth on the depth makes no difference, and is not what it fails for.  Occurrences of the
target never overlap.  If it succeeds, the result has the replacement at all occurrences and
elsewhere what the plan has, and all types follow from what stands below. -/
theorem replacing_downwards_substitutes {σ : Type} {session : Session}
    (hreached : session.Reached) {node : Node} (hnode : session.Knows node)
    {rule : Replacement} (htarget : session.Knows rule.target)
    (hreplacement : session.Knows rule.replacement) (hunnested : rule.Unnested)
    (store : Store σ) (hstore : session.next ≤ store.next) :
    (∀ path rest, rule.OccursAt path node → rule.OccursAt (path ++ rest) node →
        rest = []) ∧
      ∃ result, answer result ≠ .error .depthExhausted ∧
        (∀ depth, node.preorder.length + rule.replacement.preorder.length ≤ depth →
          node.transformDown rule.operation depth store = result) ∧
        ∀ new store', result = .ok new store' → rule.Substituted node new ∧
          ∀ part ∈ new.preorder, part.type = part.label.typeOf (part.children.map (·.type)) := by
  have hsound := hreached.sound
  refine ⟨fun path rest => Replacement.eq_nil_of_occursAt_append hsound hnode htarget,
    rule.substitute node store, Replacement.needsNoDepth_substitute rule node store, ?_, ?_⟩
  · intro depth hdepth
    rw [hunnested.transformDown_eq_substitute hsound hnode hreplacement hdepth]
  · intro new store' hrun
    have hlater : Knows ⟨store.next, session.held⟩ node := hnode
    have hextends : Extends ⟨store.next, session.held⟩ session := fun _ hknown => hknown
    obtain ⟨last, -, hgoes, hknown, hsubstituted⟩ :=
      Replacement.leads_substitute htarget hreplacement hlater store
        ⟨.forget session _ hreached hstore (fun _ hknown => hknown), rfl, hextends⟩
    rw [hrun] at hgoes hknown hsubstituted
    have hwhole := hgoes.1.sound.whole (hknown new List.mem_cons_self)
    exact ⟨hsubstituted new rfl, fun part hpart => (hwhole part hpart).type_eq⟩

end

open Session
open scoped Hints

/-- A call with two sums that are the same, one of them below a negation.  Both become one
column, and the negation takes its type. -/
theorem replacing_downwards_substitutes_sums :
    ∃ (session : Session) (call y column : Node) (rule : Replacement) (new negation : Node)
      (store' : Store Unit),
      session.Reached ∧ session.Knows call ∧ session.Knows rule.target ∧
      session.Knows rule.replacement ∧ rule.Unnested ∧ rule.replacement = column ∧
      rule.OccursAt [0, 0] call ∧ rule.OccursAt [2] call ∧
      call.transformDown rule.operation 10 ⟨session.next, ()⟩ = .ok new store' ∧
      new.at? [0, 0] = some column ∧ new.at? [2] = some column ∧
      new.at? [1] = some y ∧ new.at? [0] = some negation ∧
      (call.at? [0]).map (·.type) = some .integer ∧ negation.type = .float := by
  let x := (Label.parameter "x" .integer).node 0 .empty []
  let y := (Label.parameter "y" .integer).node 1 .empty []
  let sum := (Label.binary .add).node 2 .empty [x, y]
  let other := (Label.binary .add).node 3 .empty [x, y]
  let negated := (Label.unary .negate).node 4 .empty [other]
  let column := (Label.column none "c" .float).node 5 .empty []
  let call := (Label.call ⟨none, "pick", ["int", "int", "int"]⟩ .float).node 6 .empty
    [negated, y, sum]
  have hx : Reached ⟨1, [x]⟩ := (Reached.start 0).assemble (by simp) rfl
  have hy : Reached ⟨2, [y, x]⟩ := hx.assemble (by simp) rfl
  have hsum : Reached ⟨3, [sum, y, x]⟩ := hy.assemble (by simp) rfl
  have hother : Reached ⟨4, [other, sum, y, x]⟩ := hsum.assemble (by simp) rfl
  have hnegated : Reached ⟨5, [negated, other, sum, y, x]⟩ :=
    hother.assemble (by simp) rfl
  have hcolumn : Reached ⟨6, [column, negated, other, sum, y, x]⟩ :=
    hnegated.assemble (by simp) rfl
  let session : Session := ⟨7, [call, column, negated, other, sum, y, x]⟩
  have hreached : session.Reached := hcolumn.assemble (by simp) rfl
  have hknown : ∀ node ∈ session.held, session.Knows node :=
    fun node hnode => knows_of_mem_held hnode
  let rule : Replacement := ⟨sum, column⟩
  have hunnested : rule.Unnested := by simp [Replacement.Unnested, rule, column]
  have hdown : rule.OccursAt [0, 0] call := ⟨other, rfl, by decide⟩
  have hright : rule.OccursAt [2] call := ⟨sum, rfl, by decide⟩
  obtain ⟨new, negation, store', hrun, hy, hnegation, htype⟩ :
      ∃ new negation store',
        call.transformDown rule.operation 10 (⟨session.next, ()⟩ : Store Unit) =
          .ok new store' ∧ new.at? [1] = some y ∧ new.at? [0] = some negation ∧
        negation.type = .float := ⟨_, _, _, rfl, rfl, rfl, rfl⟩
  obtain ⟨-, result, -, hends, hanswers⟩ := replacing_downwards_substitutes hreached
    (hknown call (by simp [session])) (hknown rule.target (by simp [session, rule]))
    (hknown rule.replacement (by simp [session, rule])) hunnested
    (⟨session.next, ()⟩ : Store Unit) (le_refl _)
  have hresult : result = .ok new store' := (hends 10 (by decide)).symm.trans hrun
  obtain ⟨hsubstituted, -⟩ := hanswers new store' hresult
  exact ⟨session, call, y, column, rule, new, negation, store', hreached,
    hknown call (by simp [session]), hknown rule.target (by simp [session, rule]),
    hknown rule.replacement (by simp [session, rule]), hunnested, rfl, hdown, hright, hrun,
    hsubstituted.replaced [0, 0] hdown, hsubstituted.replaced [2] hright, hy, hnegation, rfl,
    htype⟩

end QueryPlan
