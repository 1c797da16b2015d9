import QueryPlan.Proofs.Annotations.Hints
import QueryPlan.Proofs.Attempt
import QueryPlan.Proofs.Node.Updating
import QueryPlan.Proofs.Session.Reached

/-!
# Two ways of rebuilding a node

A visit of the children checks what becomes of each child before it goes on to the next; an
update checks all of them afterwards.  Both report the first child of a wrong category, so that
a visit by an operation that does not fail answers what an update with its results answers.
-/

namespace QueryPlan

section

variable [ForeignTypes]

variable {σ : Type}

/-- The operation, which now puts each node that it is given at the end of a record. -/
def recordingCalls (change : Node → Work σ Node) (child : Node) : Work (σ × List Node) Node :=
  fun ⟨next, (own, record)⟩ =>
    match change child ⟨next, own⟩ with
    | .ok result later => .ok result ⟨later.next, (later.own, record ++ [child])⟩
    | .error fault later => .error fault ⟨later.next, (later.own, record ++ [child])⟩

/-- The same failure, or nodes that differ in their handles alone and are either both the node
that was rebuilt or both other ones. -/
def AgreeUpToHandle (node : Node) : Except NodeError Node → Except NodeError Node → Prop
  | .ok a, .ok b => a = { b with handle := a.handle } ∧ a.is node = b.is node
  | .error fault, .error fault' => fault = fault'
  | _, _ => False

namespace Label

variable {label : Label} {place : Nat} {child : Node} {rest : List Node}

theorem checkCategories_dropLast_cons_iff (hchild : child.category = label.slotCategory place) :
    label.checkCategories place (child :: rest).dropLast = .ok () ↔
      label.checkCategories (place + 1) rest.dropLast = .ok () := by
  cases rest with
  | nil => simp [checkCategories]
  | cons next rest =>
      rw [List.dropLast_cons_cons, checkCategories_cons_eq_ok_iff, and_iff_right hchild]

theorem checkCategories_append_of_error {children : List Node} {fault : NodeError}
    (hchecked : label.checkCategories place children = .error fault) (others : List Node) :
    label.checkCategories place (children ++ others) = .error fault := by
  induction children generalizing place with
  | nil => cases hchecked
  | cons child rest ih =>
      by_cases hchild : child.category = label.slotCategory place
      · rw [checkCategories_cons hchild] at hchecked
        rw [List.cons_append, checkCategories_cons hchild, ih hchecked]
      · rw [checkCategories, Node.expect_eq_error hchild] at hchecked
        rw [List.cons_append, checkCategories, Node.expect_eq_error hchild]
        exact hchecked

end Label

namespace Node

variable {change : Node → Work σ Node} {label : Label}

/-- The calls that a visit of children makes: it goes on while the results are of the right
categories. -/
structure Calls (change : Node → Work σ Node) (label : Label) (place : Nat)
    (called left results : List Node) (store later : Store σ) : Prop where
  run : called.mapM change store = .ok results later
  fits : label.checkCategories place results.dropLast = .ok ()
  stops : left ≠ [] → label.checkCategories place results ≠ .ok ()

theorem exists_calls (label : Label) {children : List Node}
    (hchange : ∀ child ∈ children, ∀ store, ∃ result later, change child store = .ok result later)
    (place : Nat) (store : Store σ) :
    ∃ called left results later, children = called ++ left ∧
      Calls change label place called left results store later := by
  induction children generalizing place store with
  | nil => exact ⟨[], [], [], store, rfl, rfl, rfl, by simp⟩
  | cons child rest ih =>
      obtain ⟨hchild, hrest⟩ := List.forall_mem_cons.mp hchange
      obtain ⟨result, middle, hrun⟩ := hchild store
      by_cases hcategory : result.category = label.slotCategory place
      · obtain ⟨called, left, results, later, rfl, hcalls⟩ := ih hrest (place + 1) middle
        refine ⟨child :: called, left, result :: results, later, rfl, ?_, ?_, ?_⟩
        · exact Attempt.mapM_cons_eq_ok_iff.mpr ⟨result, middle, results, hrun, hcalls.run, rfl⟩
        · exact (Label.checkCategories_dropLast_cons_iff hcategory).mpr hcalls.fits
        · intro hleft
          rw [ne_eq, Label.checkCategories_cons_eq_ok_iff, and_iff_right hcategory]
          exact hcalls.stops hleft
      · refine ⟨[child], rest, [result], middle, rfl, ?_, rfl, fun _ => ?_⟩
        · exact Attempt.mapM_cons_eq_ok_iff.mpr ⟨result, middle, [], hrun, rfl, rfl⟩
        · rw [ne_eq, Label.checkCategories_cons_eq_ok_iff]
          exact fun hresult => hcategory hresult.1

theorem Calls.visitFrom_eq {place : Nat} {called left results : List Node}
    {store later : Store σ} (hcalls : Calls change label place called left results store later) :
    visitFrom change label place (called ++ left) store =
      Attempt.ofExcept ((label.checkCategories place results).map fun _ => results) later := by
  induction called generalizing place results store with
  | nil =>
      obtain ⟨hrun, -, hstops⟩ := hcalls
      obtain ⟨rfl, rfl⟩ := Attempt.mapM_nil_eq_ok_iff.mp hrun
      cases left with
      | nil => rfl
      | cons child rest => exact absurd rfl (hstops (List.cons_ne_nil _ _))
  | cons child rest ih =>
      obtain ⟨hrun, hfits, hstops⟩ := hcalls
      obtain ⟨result, middle, others, hchild, hrest, rfl⟩ := Attempt.mapM_cons_eq_ok_iff.mp hrun
      rw [List.cons_append, visitFrom, Attempt.bind_of_eq_ok hchild]
      by_cases hcategory : result.category = label.slotCategory place
      · have hinner := ih ⟨hrest,
          (Label.checkCategories_dropLast_cons_iff hcategory).mp hfits,
          fun hleft => Label.checkCategories_cons hcategory others ▸ hstops hleft⟩
        rw [expect_eq_ok_iff.mpr ⟨hcategory, rfl⟩, Label.checkCategories_cons hcategory]
        change (visitFrom change label (place + 1) (rest ++ left) >>=
          fun visited => pure (result :: visited)) middle = _
        cases hothers : label.checkCategories (place + 1) others with
        | error fault =>
            rw [hothers] at hinner
            exact Attempt.bind_of_eq_error hinner
        | ok =>
            rw [hothers] at hinner
            exact Attempt.bind_of_eq_ok hinner
      · -- The results end with the first one of a wrong category.
        have hothers : others = [] := by
          cases others with
          | nil => rfl
          | cons other others =>
              rw [List.dropLast_cons_cons, Label.checkCategories_cons_eq_ok_iff] at hfits
              exact absurd hfits.1 hcategory
        have hrest' : rest = [] := by
          rw [← List.length_eq_zero_iff, ← Attempt.length_of_mapM hrest, hothers, List.length_nil]
        subst hothers hrest'
        obtain ⟨-, rfl⟩ := Attempt.mapM_nil_eq_ok_iff.mp hrest
        rw [Label.checkCategories, expect_eq_error hcategory]
        rfl

theorem mapM_recordingCalls {called results : List Node} {store later : Store σ}
    (hrun : called.mapM change store = .ok results later) (record : List Node) :
    called.mapM (recordingCalls change) ⟨store.next, (store.own, record)⟩ =
      .ok results ⟨later.next, (later.own, record ++ called)⟩ := by
  induction called generalizing results store record with
  | nil =>
      obtain ⟨rfl, rfl⟩ := Attempt.mapM_nil_eq_ok_iff.mp hrun
      rw [List.append_nil]
      rfl
  | cons child rest ih =>
      obtain ⟨result, middle, others, hchild, hrest, rfl⟩ := Attempt.mapM_cons_eq_ok_iff.mp hrun
      have hrecorded : recordingCalls change child ⟨store.next, (store.own, record)⟩ =
          .ok result ⟨middle.next, (middle.own, record ++ [child])⟩ := by
        simp only [recordingCalls, hchild]
      refine Attempt.mapM_cons_eq_ok_iff.mpr ⟨result, _, others, hrecorded, ?_, rfl⟩
      rw [ih hrest, List.append_assoc, List.singleton_append]

variable {place : Nat} {called left results : List Node} {store later : Store σ}

theorem Calls.recording (hcalls : Calls change label place called left results store later)
    (record : List Node) :
    Calls (recordingCalls change) label place called left results
      ⟨store.next, (store.own, record)⟩ ⟨later.next, (later.own, record ++ called)⟩ :=
  ⟨mapM_recordingCalls hcalls.run record, hcalls.fits, hcalls.stops⟩

theorem Calls.visitChildren_eq {node : Node} (hchildren : node.children = called ++ left)
    (hcalls : Calls change node.label 0 called left results store later) :
    node.visitChildren change store =
      (do
        Attempt.ofExcept (node.label.checkCategories 0 results)
        Work.ofBuild (node.update results) : Work σ Node) later := by
  have hvisit := hcalls.visitFrom_eq
  unfold visitChildren
  rw [hchildren]
  cases hchecked : node.label.checkCategories 0 results with
  | error fault =>
      rw [hchecked] at hvisit
      exact Attempt.bind_of_eq_error hvisit
  | ok =>
      rw [hchecked] at hvisit
      exact Attempt.bind_of_eq_ok hvisit

theorem Calls.record_eq {node : Node} (hchildren : node.children = called ++ left)
    (hcalls : Calls change node.label 0 called left results store later) :
    (final (node.visitChildren (recordingCalls change) ⟨store.next, (store.own, [])⟩)).own.2 =
      called := by
  rw [(hcalls.recording []).visitChildren_eq hchildren]
  cases node.label.checkCategories 0 results with
  | error fault => rfl
  | ok => exact congrArg Prod.snd (Work.own_ofBuild _ _)

/-- An update with the results of all children fails as a visit that does not call all. -/
theorem Calls.answer_eq {node : Node} (hnode : node.WellFormed)
    (hchildren : node.children = called ++ left)
    (hcalls : Calls change node.label 0 called left results store later)
    {more : List Node} {last : Store σ} (hmore : left.mapM change later = .ok more last) :
    answer (node.visitChildren change store) =
      answer ((do
        let news ← node.children.mapM change
        Work.ofBuild (node.updateChildren news) : Work σ Node) store) := by
  have hrun := Attempt.mapM_append_of_eq_ok hcalls.run hmore
  have hcount : (results ++ more).length = node.label.arity := by
    rw [← hnode.arity, hchildren, Attempt.length_of_mapM hrun]
  have hgiven := Label.checkGiven_of_checkCount
    ((Label.checkCount_eq_ok_iff node.label (results ++ more)).mpr hcount)
  rw [hcalls.visitChildren_eq hchildren, hchildren, Attempt.bind_of_eq_ok hrun,
    updateChildren_eq_bind, hgiven]
  cases hchecked : node.label.checkCategories 0 results with
  | error fault =>
      rw [Label.checkCategories_append_of_error hchecked]
      rfl
  | ok =>
      -- All results are of the right categories, so that no child was left out.
      have hleft : left = [] := by
        by_contra hleft
        exact hcalls.stops hleft hchecked
      rw [hleft] at hmore
      obtain ⟨rfl, rfl⟩ := Attempt.mapM_nil_eq_ok_iff.mp hmore
      rw [List.append_nil, hchecked]
      rfl

/-- A visit by an operation that does not fail answers what an update with its results does. -/
theorem answer_visitChildren {node : Node} (hnode : node.WellFormed) (change : Node → Work σ Node)
    (hchange : ∀ child ∈ node.children, ∀ store,
      ∃ result later, change child store = .ok result later) (store : Store σ) :
    answer (node.visitChildren change store) =
      answer ((do
        let news ← node.children.mapM change
        Work.ofBuild (node.updateChildren news) : Work σ Node) store) := by
  obtain ⟨called, left, results, later, hchildren, hcalls⟩ :=
    exists_calls node.label hchange 0 store
  have hleft : ∀ child ∈ left, ∀ store, ∃ result later, change child store = .ok result later :=
    fun child hchild => hchange child (hchildren ▸ List.mem_append_right called hchild)
  obtain ⟨more, last, hmore⟩ := Attempt.exists_mapM_eq_ok hleft later
  exact hcalls.answer_eq hnode hchildren hmore

/-- Updates that draw different handles agree. -/
theorem update_agree {node : Node} {next next' : Handle} (hnext : node.handle ≠ next)
    (hnext' : node.handle ≠ next') (children : List Node) :
    AgreeUpToHandle node (answer (node.update children next))
      (answer (node.update children next')) := by
  unfold update
  split
  · refine ⟨?_, rfl⟩
    cases node
    rfl
  · rw [compose_eq, compose_eq]
    cases node.label.checkParts children with
    | error fault => exact rfl
    | ok => exact ⟨rfl, by simp [is, hnext.symm, hnext'.symm]⟩

theorem updateChildren_agree {node : Node} {next next' : Handle} (hnext : node.handle ≠ next)
    (hnext' : node.handle ≠ next') (children : List Node) :
    AgreeUpToHandle node (answer (node.updateChildren children next))
      (answer (node.updateChildren children next')) := by
  rw [updateChildren_eq_bind]
  cases node.label.checkGiven children with
  | error fault => exact rfl
  | ok => exact update_agree hnext hnext' children

end Node

namespace Session

variable {session : Session} {node : Node}

/-- A visit of the children of a node by an operation that does not fail calls it on one child
after the other, until it has answered a node of a wrong category, and answers what an update
with the results for all children answers.  For an operation that builds nothing the update
may be made at any other time. -/
theorem visiting_children_updates (hreached : session.Reached) (hnode : session.Knows node)
    {change : Node → Work σ Node}
    (hchange : ∀ child ∈ node.children, ∀ store,
      ∃ result later, change child store = .ok result later) (store : Store σ) :
    (∃ called left results later, node.children = called ++ left ∧
      (final (node.visitChildren (recordingCalls change)
        ⟨store.next, (store.own, [])⟩)).own.2 = called ∧
      called.mapM change store = .ok results later ∧
      List.Forall₂ (fun child result => result.category = child.category)
        called.dropLast results.dropLast ∧
      (left ≠ [] → ¬ List.Forall₂ (fun child result => result.category = child.category)
        called results)) ∧
    answer (node.visitChildren change store) =
      answer ((do
        let news ← node.children.mapM change
        Work.ofBuild (node.updateChildren news) : Work σ Node) store) ∧
    ∀ (f : Node → Node) (own : σ) (next next' : Handle), session.next ≤ next →
      session.next ≤ next' →
      AgreeUpToHandle node
        (answer (node.visitChildren (fun child => pure (f child)) ⟨next, own⟩))
        (answer (node.updateChildren (node.children.map f) next')) := by
  have hsound := hreached.sound
  have hwell := hsound.wellFormed node hnode
  refine ⟨?_, Node.answer_visitChildren hwell change hchange store, ?_⟩
  · obtain ⟨called, left, results, later, hchildren, hcalls⟩ :=
      Node.exists_calls node.label hchange 0 store
    have hcalled : called <+: node.children := hchildren ▸ List.prefix_append called left
    have hlength := Attempt.length_of_mapM hcalls.run
    refine ⟨called, left, results, later, hchildren, hcalls.record_eq hchildren, hcalls.run,
      ?_, fun hleft => ?_⟩
    · refine (hwell.checkCategories_iff ((List.dropLast_prefix called).trans hcalled) ?_).mp
        hcalls.fits
      rw [List.length_dropLast, List.length_dropLast, hlength]
    · rw [← hwell.checkCategories_iff hcalled hlength]
      exact hcalls.stops hleft
  · intro f own next next' hnext hnext'
    have hbound := hsound.bounded node hnode
    have hanswer := Node.answer_visitChildren hwell (fun child => (pure (f child) : Work σ Node))
      (fun child _ store => ⟨f child, store, rfl⟩) ⟨next, own⟩
    rw [List.mapM_pure, pure_bind, Work.answer_ofBuild] at hanswer
    rw [hanswer]
    exact Node.updateChildren_agree (hbound.trans_le hnext).ne (hbound.trans_le hnext').ne _

end Session

end

open scoped Hints

namespace Session

/-- A join whose table becomes a column: its predicate is not looked at. -/
theorem visiting_children_updates_join :
    ∃ (session : Session) (join table predicate : Node),
      session.Reached ∧ session.Knows join ∧ join.children = [table, predicate] ∧
      (final (join.visitChildren (recordingCalls fun _ => (pure predicate : Work Unit Node))
        ⟨session.next, ((), [])⟩)).own.2 = [table] ∧
      answer (join.visitChildren (fun _ => (pure predicate : Work Unit Node))
        ⟨session.next, ()⟩) = .error (.wrongCategory .innerJoin .source .column) ∧
      answer ((do
        let news ← [table, predicate].mapM fun _ => (pure predicate : Work Unit Node)
        Work.ofBuild (join.updateChildren news) : Work Unit Node) ⟨session.next, ()⟩) =
          .error (.wrongCategory .innerJoin .source .column) ∧
      AgreeUpToHandle join
        (answer (join.visitChildren (fun child => (pure child : Work Unit Node))
          ⟨session.next, ()⟩))
        (answer (join.updateChildren [table, predicate] (session.next + 1))) := by
  let table := (Label.table "t" none none).node 0 .empty []
  let predicate := (Label.column none "p" .boolean).node 1 .empty []
  let join := (Label.joinOn .inner).node 2 .empty [table, predicate]
  have htable : Reached ⟨1, [table]⟩ := (Reached.start 0).assemble (by simp) rfl
  have hpredicate : Reached ⟨2, [predicate, table]⟩ := htable.assemble (by simp) rfl
  let session : Session := ⟨3, [join, predicate, table]⟩
  have hreached : session.Reached := hpredicate.assemble (by simp) rfl
  have hnode : session.Knows join := knows_of_mem_held List.mem_cons_self
  let change : Node → Work Unit Node := fun _ => pure predicate
  have hchange : ∀ child ∈ join.children, ∀ store,
      ∃ result later, change child store = .ok result later :=
    fun _ _ store => ⟨predicate, store, rfl⟩
  obtain ⟨-, hanswer, hagree⟩ :=
    visiting_children_updates hreached hnode hchange ⟨session.next, ()⟩
  have hupdate := hagree id () session.next (session.next + 1) (Nat.le_refl _) (Nat.le_succ _)
  rw [List.map_id] at hupdate
  exact ⟨session, join, table, predicate, hreached, hnode, rfl, rfl, rfl, hanswer.symm, hupdate⟩

end Session

end QueryPlan
