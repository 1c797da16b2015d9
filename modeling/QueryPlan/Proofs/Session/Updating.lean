import QueryPlan.Proofs.Annotations.Hints
import QueryPlan.Proofs.Node.Rebuilding
import QueryPlan.Proofs.Node.Updating
import QueryPlan.Proofs.Session.Equality
import QueryPlan.Proofs.Session.Reached

/-!
# Updates of known nodes

Updating a node is like writing to a lens whose contents are the children.  It is refused
exactly if the children do not fit, what is written is read back, writing back what was read
keeps the node, and of two writes one after the other only the second counts.
-/

namespace QueryPlan

section

variable [ForeignTypes]

namespace Session

variable {session : Session} {node : Node} {children : List Node}

theorem Sound.eq_of_kept (hsound : session.Sound) (hnode : session.Knows node)
    (hchildren : ∀ child ∈ children, session.Knows child) :
    Node.areAll children node.children = true → children = node.children :=
  hsound.eq_of_areAll hchildren fun _ hchild => hnode.child hchild

theorem Sound.updateChildren_eq_ok_iff (hsound : session.Sound) (hnode : session.Knows node)
    (hchildren : ∀ child ∈ children, session.Knows child) {next later : Handle}
    {result : Node} :
    node.updateChildren children next = .ok result later ↔
      node.Accepts children ∧ node.updated children next = result ∧
        (if Node.areAll children node.children then next else next + 1) = later := by
  have hwell := hsound.wellFormed node hnode
  rw [Node.updateChildren_eq hwell (hsound.eq_of_kept hnode hchildren),
    ← hwell.checkUpdate_iff]
  cases node.label.checkUpdate children with
  | error fault => simp
  | ok => simp

theorem Sound.updateChildren_fields (hsound : session.Sound) (hnode : session.Knows node)
    (hchildren : ∀ child ∈ children, session.Knows child) {next later : Handle}
    {result : Node} (hrun : node.updateChildren children next = .ok result later) :
    result = node.label.node result.handle node.annotations children := by
  obtain ⟨-, rfl, -⟩ := (hsound.updateChildren_eq_ok_iff hnode hchildren).mp hrun
  exact Node.updated_eq (hsound.wellFormed node hnode) (hsound.eq_of_kept hnode hchildren) next

/-- A second update leaves nothing of the children that the first one put. -/
theorem Sound.updateChildren_again (hsound : session.Sound) (hnode : session.Knows node)
    (hchildren : ∀ child ∈ children, session.Knows child) {others : List Node}
    (hothers : ∀ other ∈ others, session.Knows other) {next next' later later' : Handle}
    {first direct : Node} (hfirst : node.updateChildren children next = .ok first later)
    (hdirect : node.updateChildren others next' = .ok direct later') (last : Handle) :
    ∃ again last', first.updateChildren others last = .ok again last' ∧
      again = { direct with handle := again.handle } := by
  have hwell := hsound.wellFormed node hnode
  have hchecked := hwell.checkUpdate_iff.mpr
    ((hsound.updateChildren_eq_ok_iff hnode hchildren).mp hfirst).1
  have hchecked' := hwell.checkUpdate_iff.mpr
    ((hsound.updateChildren_eq_ok_iff hnode hothers).mp hdirect).1
  rw [hsound.updateChildren_fields hnode hchildren hfirst,
    hsound.updateChildren_fields hnode hothers hdirect]
  -- The first update counts by its handle alone, which no check looks at.
  generalize first.handle = handle
  obtain ⟨hcategories, hparts⟩ := Label.checkUpdate_eq_ok_iff.mp hchecked
  have hput : (node.label.node handle node.annotations children).WellFormed :=
    Label.wellFormed_node hcategories hparts hwell.annotations
  have hkept := hsound.eq_of_areAll hothers hchildren
  have hagain := Node.updateChildren_eq hput hkept last
  rw [Label.node_label, hchecked'] at hagain
  exact ⟨_, _, hagain, Node.updated_eq hput hkept last⟩

theorem Sound.updateChildren_children (hsound : session.Sound) (hnode : session.Knows node)
    (next : Handle) : node.updateChildren node.children next = .ok node next := by
  have hwell := hsound.wellFormed node hnode
  have hare := Node.areAll_self node.children
  refine (hsound.updateChildren_eq_ok_iff hnode fun _ hchild => hnode.child hchild).mpr
    ⟨?_, if_pos hare, if_pos hare⟩
  exact hwell.checkUpdate_iff.mp
    (Label.checkUpdate_eq_ok_iff.mpr ⟨hwell.checkCategories, hwell.checkParts⟩)

/-- A table is put in a predicate join without a check of the predicate that it keeps. -/
theorem Sound.updateTable_keeps_predicate (hsound : session.Sound) (hnode : session.Knows node)
    {table predicate : Node} (hpredicate : node.predicate? = some predicate)
    (htable : session.Knows table) (next : Handle) :
    ∃ result later, node.updateTable table next = .ok result later ∧
      result.predicate? = some predicate := by
  have hwell := hsound.wellFormed node hnode
  obtain ⟨form, old, hlabel, hchildren⟩ := hwell.predicate?_eq_some_iff.mp hpredicate
  have hknown : ∀ child ∈ [table, predicate], session.Knows child := by
    refine List.forall_mem_cons.mpr ⟨htable, List.forall_mem_singleton.mpr ?_⟩
    exact hnode.child (by simp [hchildren])
  have hkept := hsound.eq_of_kept hnode hknown
  have hrun := Node.update_eq hwell hkept next
  rw [hwell.checkParts_table hpredicate] at hrun
  rw [Node.updateTable_eq_update hwell hpredicate]
  refine ⟨_, _, hrun, ?_⟩
  rw [Node.updated_eq hwell hkept, hlabel]
  cases form <;> rfl

/-- A known node is a lens on its children. -/
theorem updating_children_obeys_lens_laws (hreached : session.Reached)
    (hnode : session.Knows node) :
    (∀ children : List Node, (∀ child ∈ children, session.Knows child) →
      ((∃ result next, node.updateChildren children session.next = .ok result next) ↔
        node.Accepts children) ∧
      ∀ result next, node.updateChildren children session.next = .ok result next →
        result = node.label.node result.handle node.annotations children ∧
        (result.is node = true ↔
          children.map (·.handle) = node.children.map (·.handle)) ∧
        (result.is node = true → result = node)) ∧
    node.updateChildren node.children session.next = .ok node session.next ∧
    (∀ children others : List Node, (∀ child ∈ children, session.Knows child) →
      (∀ other ∈ others, session.Knows other) →
      ∀ first direct next later, node.updateChildren children session.next = .ok first next →
        node.updateChildren others next = .ok direct later →
        ∃ again last, first.updateChildren others later = .ok again last ∧
          again.same direct = true ∧ again = { direct with handle := again.handle }) ∧
    ∀ table predicate, node.predicate? = some predicate → session.Knows table →
      node.updateTable table session.next = node.update [table, predicate] session.next ∧
      ∃ result next, node.updateTable table session.next = .ok result next ∧
        result.predicate? = some predicate ∧ predicate.type.isBooleanCompatible := by
  have hsound := hreached.sound
  have hwell := hsound.wellFormed node hnode
  refine ⟨fun children hchildren => ⟨?_, ?_⟩, ?_, ?_, ?_⟩
  · simp [hsound.updateChildren_eq_ok_iff hnode hchildren]
  · intro result next hrun
    have hfields := hsound.updateChildren_fields hnode hchildren hrun
    obtain ⟨-, rfl, -⟩ := (hsound.updateChildren_eq_ok_iff hnode hchildren).mp hrun
    have his := Node.updated_is_iff (hsound.bounded node hnode).ne children
    refine ⟨hfields, his, fun hkept => ?_⟩
    exact if_pos ((Node.areAll_iff_handles _ _).mpr (his.mp hkept))
  · exact hsound.updateChildren_children hnode session.next
  · intro children others hchildren hothers first direct next later hfirst hdirect
    obtain ⟨again, last, hagain, heq⟩ :=
      hsound.updateChildren_again hnode hchildren hothers hfirst hdirect later
    refine ⟨again, last, hagain, ?_, heq⟩
    rw [heq]
    exact direct.same_with_handle again.handle
  · intro table predicate hpredicate htable
    obtain ⟨result, next, hrun, hkept⟩ :=
      hsound.updateTable_keeps_predicate hnode hpredicate htable session.next
    exact ⟨Node.updateTable_eq_update hwell hpredicate table session.next, result, next, hrun,
      hkept, hwell.predicate predicate hpredicate⟩

end Session

end

open scoped Hints

namespace Session

/-- A join takes another table with another predicate, but not in each other's places. -/
theorem updating_children_obeys_lens_laws_join :
    ∃ (session : Session) (join table predicate other truth first direct again : Node)
      (next later last : Handle),
      session.Reached ∧ session.Knows join ∧ join.children = [table, predicate] ∧
      join.Accepts [other, truth] ∧ ¬ join.Accepts [truth, other] ∧
      join.updateChildren [table, predicate] session.next = .ok join session.next ∧
      join.updateChildren [other, truth] session.next = .ok first next ∧
      first.is join = false ∧
      join.updateChildren [other, predicate] next = .ok direct later ∧
      first.updateChildren [other, predicate] later = .ok again last ∧
      again.same direct = true ∧ again.is direct = false ∧
      join.updateTable other session.next = join.update [other, predicate] session.next := by
  let table := (Label.table "t" none none).node 0 .empty []
  let predicate := (Label.column none "p" .boolean).node 1 .empty []
  let join := (Label.joinOn .inner).node 2 .empty [table, predicate]
  let other := (Label.table "u" none none).node 3 .empty []
  let truth := (Label.column none "q" .unknown).node 4 .empty []
  have htable : Reached ⟨1, [table]⟩ := (Reached.start 0).assemble (by simp) rfl
  have hpredicate : Reached ⟨2, [predicate, table]⟩ := htable.assemble (by simp) rfl
  have hjoin : Reached ⟨3, [join, predicate, table]⟩ := hpredicate.assemble (by simp) rfl
  have hother : Reached ⟨4, [other, join, predicate, table]⟩ := hjoin.assemble (by simp) rfl
  let session : Session := ⟨5, [truth, other, join, predicate, table]⟩
  have hreached : session.Reached := hother.assemble (by simp) rfl
  have hknown : ∀ node ∈ session.held, session.Knows node := fun _ => knows_of_mem_held
  have hnode : session.Knows join := hknown join (by simp [session])
  obtain ⟨hupdates, hself, hagain, htables⟩ :=
    updating_children_obeys_lens_laws hreached hnode
  have hfits : ∀ child ∈ [other, truth], session.Knows child := by
    simp [hknown, session]
  have hswapped : ∀ child ∈ [truth, other], session.Knows child := by
    simp [hknown, session]
  have hold : ∀ child ∈ [other, predicate], session.Knows child := by
    simp [hknown, session]
  have hrefused : ¬ join.Accepts [truth, other] := by
    rw [← (hupdates _ hswapped).1]
    rintro ⟨result, next, hrun⟩
    cases hrun
  obtain ⟨again, last, hrun, hsame, heq⟩ := hagain _ _ hfits hold _ _ _ _ rfl rfl
  have hother : session.Knows other := hknown other (by simp [session])
  refine ⟨session, join, table, predicate, other, truth, _, _, again, _, _, last, hreached,
    hnode, rfl, (hupdates _ hfits).1.mp ⟨_, _, rfl⟩, hrefused, hself, rfl, rfl, rfl, hrun,
    hsame, ?_, (htables other predicate rfl hother).1⟩
  cases hrun
  rfl

end Session

end QueryPlan
