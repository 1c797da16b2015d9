import QueryPlan.Proofs.Annotations.Hints
import QueryPlan.Proofs.Annotations.View
import QueryPlan.Proofs.Node.Alike
import QueryPlan.Proofs.Session.Updating

/-!
# Annotations of known nodes

Annotating a node overwrites the view of its annotations at one name and leaves its label, type
and children as they are.  A node that answers an equal value for the name is kept, and any
other one becomes a different plan.

So annotations behave like the entries of a map, and annotating can change places with updating
the children: the checks of an update look at no annotation.
-/

namespace QueryPlan

section

variable [ForeignTypes]

open ForeignTypes (LawfulEqual)

namespace Node

/-- What annotating answers that may draw a handle. -/
def annotated (node : Node) (name : String) (value : NoteValue) (handle : Handle) : Node :=
  if node.annotations.has name value then node
  else { node with handle, annotations := node.annotations.set handle name value }

/-- From any two handles both actions succeed, and they answer equal plans. -/
def Agree (action other : Build Node) : Prop :=
  ∀ next later, ∃ a b, answer (action next) = .ok a ∧ answer (other later) = .ok b ∧
    a.same b = true

variable {node : Node} {children : List Node}

/-! ## What annotating leaves alone -/

section Annotated

variable (node : Node) (name : String) (value : NoteValue) (handle : Handle)

@[simp] theorem annotated_label : (node.annotated name value handle).label = node.label := by
  unfold annotated
  split <;> rfl

@[simp] theorem annotated_type : (node.annotated name value handle).type = node.type := by
  unfold annotated
  split <;> rfl

@[simp] theorem annotated_children :
    (node.annotated name value handle).children = node.children := by
  unfold annotated
  split <;> rfl

@[simp] theorem annotated_annotations :
    (node.annotated name value handle).annotations = node.annotations.set handle name value := by
  unfold annotated Annotations.set
  split <;> rfl

theorem annotate_eq :
    node.annotate name value handle = .ok (node.annotated name value handle)
      (if node.annotations.has name value then handle else handle + 1) := by
  unfold annotate annotated
  split <;> rfl

theorem answer_annotate :
    answer (node.annotate name value handle) = .ok (node.annotated name value handle) := by
  rw [annotate_eq]
  rfl

theorem exists_answer_annotate_bind (rest : Node → Build Node) :
    ∃ later, answer ((node.annotate name value >>= rest) handle) =
      answer (rest (node.annotated name value handle) later) :=
  ⟨_, congrArg answer (Attempt.bind_of_eq_ok (node.annotate_eq name value handle))⟩

end Annotated

theorem WellFormed.annotated (hnode : node.WellFormed) (name : String) (value : NoteValue)
    (handle : Handle) : (node.annotated name value handle).WellFormed := by
  unfold Node.annotated
  split
  · exact hnode
  · exact ⟨hnode.type_eq, hnode.predicate, hnode.arity, hnode.categories,
      hnode.annotations.set handle name value⟩

/-- Nodes with equal fields are equal if their annotations answer alike. -/
theorem same_of_view_eq [LawfulEqual] {a b : Node} (ha : a.WellFormed)
    (hb : b.WellFormed) (hlabel : a.label = b.label)
    (hchildren : a.children = b.children)
    (hview : a.annotations.view = b.annotations.view) : a.same b = true := by
  refine a.lawful.same_of_normal_eq ((ha.normal_eq_iff hb).mpr ⟨?_, ?_, ?_⟩)
  · rw [hlabel]
  · exact (ha.annotations.normal_eq_iff_view_eq hb.annotations).mpr hview
  · rw [hchildren]

/-! ## Kept and changed nodes -/

theorem annotated_is_iff {handle : Handle} (hhandle : node.handle ≠ handle) (name : String)
    (value : NoteValue) :
    (node.annotated name value handle).is node = true ↔ node.annotations.has name value = true := by
  unfold annotated
  cases hhas : node.annotations.has name value with
  | true => simp [is]
  | false => simp [is, hhandle.symm]

/-- A node that was annotated anew answers another value for the name than before. -/
theorem WellFormed.annotated_not_same [LawfulEqual] (hnode : node.WellFormed)
    {handle : Handle} (hhandle : node.handle ≠ handle)
    (hstorage : node.annotations.storage ≠ some handle) {name : String} {value : NoteValue}
    (hhas : node.annotations.has name value = false) :
    (node.annotated name value handle).same node = false := by
  have hset := hnode.annotations.set handle name value
  rw [← Bool.not_eq_true, same_iff]
  rintro (hkept | ⟨-, -, hsame⟩)
  · have his : (node.annotated name value handle).is node = true := decide_eq_true hkept
    rw [annotated_is_iff hhandle, hhas] at his
    cases his
  · rw [annotated_annotations, Annotations.same, Bool.or_eq_true,
      hset.sameAll_iff hnode.annotations] at hsame
    rcases hsame with hshares | hviews
    · rw [Annotations.shares, Annotations.set, hhas] at hshares
      exact hstorage (of_decide_eq_true hshares).symm
    · have hview : (node.annotations.set handle name value).view name =
          node.annotations.view name := hviews name
      rw [Annotations.view_set, Function.update_self] at hview
      rw [Annotations.has_iff_view.mpr hview.symm] at hhas
      cases hhas

/-! ## Annotating twice -/

theorem WellFormed.annotate_comm [LawfulEqual] (hnode : node.WellFormed) {name other : String}
    (hother : other ≠ name) (v w : NoteValue) :
    Agree (do (← node.annotate name v).annotate other w)
      (do (← node.annotate other w).annotate name v) := by
  intro next later
  obtain ⟨next', hrun⟩ := node.exists_answer_annotate_bind name v next (·.annotate other w)
  obtain ⟨later', hrun'⟩ := node.exists_answer_annotate_bind other w later (·.annotate name v)
  rw [answer_annotate] at hrun hrun'
  refine ⟨_, _, hrun, hrun', same_of_view_eq ((hnode.annotated _ _ _).annotated _ _ _)
    ((hnode.annotated _ _ _).annotated _ _ _) (by simp) (by simp) ?_⟩
  simp only [annotated_annotations, Annotations.view_set]
  exact Function.update_comm hother.symm _ _ _

theorem WellFormed.annotate_again [LawfulEqual] (hnode : node.WellFormed) (name : String)
    (v w : NoteValue) :
    Agree (do (← node.annotate name v).annotate name w) (node.annotate name w) := by
  intro next later
  obtain ⟨next', hrun⟩ := node.exists_answer_annotate_bind name v next (·.annotate name w)
  rw [answer_annotate] at hrun
  refine ⟨_, _, hrun, answer_annotate node name w later, same_of_view_eq
    ((hnode.annotated _ _ _).annotated _ _ _) (hnode.annotated _ _ _) (by simp) (by simp) ?_⟩
  simp only [annotated_annotations, Annotations.view_set, Function.update_idem]

/-- Another value in between does not matter to a node that has the value. -/
theorem WellFormed.annotate_back [LawfulEqual] (hnode : node.WellFormed) {name : String}
    {w : NoteValue} (hhas : node.annotations.has name w = true) (v : NoteValue) :
    Agree (do (← node.annotate name v).annotate name w) (pure node) := by
  intro next later
  obtain ⟨next', hrun⟩ := node.exists_answer_annotate_bind name v next (·.annotate name w)
  rw [answer_annotate] at hrun
  refine ⟨_, node, hrun, rfl, same_of_view_eq ((hnode.annotated _ _ _).annotated _ _ _) hnode
    (by simp) (by simp) ?_⟩
  simp only [annotated_annotations, Annotations.view_set, Function.update_idem]
  rw [← Annotations.has_iff_view.mp hhas, Function.update_eq_self]

/-! ## Annotating and updating -/

section Updating

variable (hnode : node.WellFormed)
  (hkept : areAll children node.children = true → children = node.children)
include hnode hkept

theorem exists_updateChildren_eq_ok (hchecked : node.label.checkUpdate children = .ok ())
    (next : Handle) :
    ∃ later, node.updateChildren children next = .ok (node.updated children next) later := by
  rw [updateChildren_eq hnode hkept, hchecked]
  exact ⟨_, rfl⟩

theorem WellFormed.updated (hchecked : node.label.checkUpdate children = .ok ())
    (handle : Handle) : (node.updated children handle).WellFormed := by
  obtain ⟨hcategories, hparts⟩ := Label.checkUpdate_eq_ok_iff.mp hchecked
  rw [updated_eq hnode hkept]
  exact Label.wellFormed_node hcategories hparts hnode.annotations

/-- The checks of an update do not look at annotations, and no update changes them. -/
theorem annotate_updateChildren [LawfulEqual] (hchecked : node.label.checkUpdate children = .ok ())
    (name : String) (value : NoteValue) :
    Agree (do (← node.annotate name value).updateChildren children)
      (do (← node.updateChildren children).annotate name value) := by
  intro next later
  have hannotated := hnode.annotated name value next
  have hkept' : areAll children (node.annotated name value next).children = true →
      children = (node.annotated name value next).children := by
    rwa [annotated_children]
  have hchecked' : (node.annotated name value next).label.checkUpdate children = .ok () := by
    rwa [annotated_label]
  obtain ⟨next', hrun⟩ :=
    node.exists_answer_annotate_bind name value next (·.updateChildren children)
  obtain ⟨last, hlast⟩ := exists_updateChildren_eq_ok hannotated hkept' hchecked' next'
  obtain ⟨later', hupdate⟩ := exists_updateChildren_eq_ok hnode hkept hchecked later
  refine ⟨_, (node.updated children later).annotated name value later',
    hrun.trans (congrArg answer hlast), ?_, ?_⟩
  · rw [Attempt.bind_of_eq_ok hupdate, answer_annotate]
  · refine same_of_view_eq (hannotated.updated hkept' hchecked' next')
      ((hnode.updated hkept hchecked later).annotated name value later') ?_ ?_ ?_ <;>
      rw [updated_eq hannotated hkept', updated_eq hnode hkept] <;>
      simp [Annotations.view_set]

end Updating

end Node

namespace Session

variable {session : Session} {node : Node}

open Node

/-- Annotating a known node leaves its label, type and children.  The node is kept exactly if
it has an equal value under the name, and is a different plan otherwise.  Up to equality two
names may be annotated in any order, of two values of one name the later one counts, a value
that is put back restores the node, and the children may be updated before or after. -/
theorem annotating_touches_nothing_else [LawfulEqual] (hreached : session.Reached)
    (hnode : session.Knows node) :
    (∀ name value, ∃ result next, node.annotate name value session.next = .ok result next ∧
      result.label = node.label ∧ result.type = node.type ∧ result.children = node.children ∧
      (result.is node = true ↔ ∃ found, node.annotations.get? name = some found ∧
        found.same value = true) ∧
      (result.is node = false → result.same node = false)) ∧
    (∀ name other v w, other ≠ name →
      Agree (do (← node.annotate name v).annotate other w)
        (do (← node.annotate other w).annotate name v)) ∧
    (∀ name v w,
      Agree (do (← node.annotate name v).annotate name w) (node.annotate name w)) ∧
    (∀ name v w found, node.annotations.get? name = some found → found.same w = true →
      Agree (do (← node.annotate name v).annotate name w) (pure node)) ∧
    ∀ children : List Node, (∀ child ∈ children, session.Knows child) →
      (∃ result next, node.updateChildren children session.next = .ok result next) →
      ∀ name value, Agree (do (← node.annotate name value).updateChildren children)
        (do (← node.updateChildren children).annotate name value) := by
  have hsound := hreached.sound
  have hwell := hsound.wellFormed node hnode
  have hhandle : node.handle ≠ session.next := (hsound.bounded node hnode).ne
  have hstorage : node.annotations.storage ≠ some session.next := fun hstorage =>
    absurd (hsound.storageBounded node session.next hnode hstorage) (lt_irrefl session.next)
  refine ⟨?_, ?_, hwell.annotate_again, ?_, ?_⟩
  · intro name value
    have his := annotated_is_iff hhandle name value
    refine ⟨_, _, node.annotate_eq name value session.next, by simp, by simp, by simp,
      his.trans Annotations.has_iff, fun hmoved => ?_⟩
    refine hwell.annotated_not_same hhandle hstorage ?_
    rwa [← Bool.not_eq_true, ← his, Bool.not_eq_true]
  · intro name other v w hother
    exact hwell.annotate_comm hother v w
  · intro name v w found hfound hsame
    exact hwell.annotate_back (Annotations.has_iff.mpr ⟨found, hfound, hsame⟩) v
  · rintro children hchildren ⟨result, next, hrun⟩ name value
    have haccepted := ((hsound.updateChildren_eq_ok_iff hnode hchildren).mp hrun).1
    exact annotate_updateChildren hwell (hsound.eq_of_kept hnode hchildren)
      (hwell.checkUpdate_iff.mpr haccepted) name value

end Session

end

open Node
open scoped Hints

namespace Session

/-- A join that is annotated with a zero takes a negative zero for the same value and a one for
another, and may get another table before or after. -/
theorem annotating_touches_nothing_else_join :
    ∃ (session : Session) (join other predicate kept moved : Node) (zero negative one : NoteValue),
      session.Reached ∧ session.Knows join ∧ join.annotations.get? "k" = some zero ∧
      zero ≠ negative ∧
      join.annotate "k" negative session.next = .ok kept session.next ∧ kept.is join = true ∧
      join.annotate "k" one session.next = .ok moved (session.next + 1) ∧
      moved.same join = false ∧ moved.children = join.children ∧
      Agree (do (← join.annotate "k" one).annotate "m" zero)
        (do (← join.annotate "m" zero).annotate "k" one) ∧
      Agree (do (← join.annotate "k" one).annotate "k" negative) (pure join) ∧
      Agree (do (← join.annotate "k" one).updateChildren [other, predicate])
        (do (← join.updateChildren [other, predicate]).annotate "k" one) := by
  let zero : NoteValue := .literal (.float .positiveZero)
  let negative : NoteValue := .literal (.float ⟨0x8000000000000000⟩)
  let one : NoteValue := .literal (.int 1)
  let table := (Label.table "t" none none).node 0 .empty []
  let predicate := (Label.column none "p" .boolean).node 1 .empty []
  let plain := (Label.joinOn .left).node 2 .empty [table, predicate]
  let join : Node := { plain with
    handle := 3
    annotations := ⟨some 3, [("k", ⟨"k", zero⟩)]⟩ }
  let other := (Label.table "u" none none).node 4 .empty []
  let session : Session := ⟨5, [other, join, plain, predicate, table]⟩
  have htable : Reached ⟨1, [table]⟩ := (Reached.start 0).assemble (by simp) rfl
  have hpredicate : Reached ⟨2, [predicate, table]⟩ := htable.assemble (by simp) rfl
  have hplain : Reached ⟨3, [plain, predicate, table]⟩ := hpredicate.assemble (by simp) rfl
  have hjoin : Reached ⟨4, [join, plain, predicate, table]⟩ :=
    hplain.call _ (.annotate plain "k" zero (knows_of_mem_held List.mem_cons_self)) rfl
  have hreached : session.Reached := hjoin.assemble (by simp) rfl
  have hknown : ∀ node ∈ session.held, session.Knows node := fun _ => knows_of_mem_held
  have hchildren : ∀ child ∈ [other, predicate], session.Knows child := by
    simp [hknown, session]
  obtain ⟨hannotate, hcomm, -, hback, hupdate⟩ :=
    annotating_touches_nothing_else hreached (hknown join (by simp [session]))
  obtain ⟨kept, next, hkept, -, -, -, hcarries, -⟩ := hannotate "k" negative
  obtain ⟨moved, later, hmoved, -, -, hsame, hnew, hother⟩ := hannotate "k" one
  have hdiffers : moved.is join = false := by
    rw [← Bool.not_eq_true, hnew]
    rintro ⟨found, hfound, hequal⟩
    cases hfound
    cases hequal
  cases hkept
  cases hmoved
  exact ⟨session, join, other, predicate, _, _, zero, negative, one, hreached,
    hknown join (by simp [session]), rfl, by decide, rfl, hcarries.mpr ⟨zero, rfl, rfl⟩, rfl,
    hother hdiffers, hsame, hcomm "k" "m" one zero (by decide),
    hback "k" one negative zero rfl rfl, hupdate _ hchildren ⟨_, _, rfl⟩ "k" one⟩

end Session

end QueryPlan
