import QueryPlan.Proofs.Annotations.Hints
import QueryPlan.Proofs.Rewrite.Computing
import QueryPlan.Proofs.Rewrite.Renewal
import QueryPlan.Rewrite.Replacement

/-!
# Minimal reallocation

Whatever the rules of a rewriter do, as long as they lead from reached sessions
to reached sessions and answer known nodes, the trace of each pass is minimal: a
node is made where one of the children was renewed, under a handle of its own, and
every other node is kept.
-/

namespace QueryPlan

section

variable [ForeignTypes]

open Session

/-! ## Allocations -/

/-- Nodes that were made between two sessions, each under a handle of its own. -/
structure Session.Allocates (session later : Session) (nodes : List Node) : Prop where
  fresh : ∀ node ∈ nodes, session.Fresh node
  known : ∀ node ∈ nodes, later.Knows node
  nodup : (nodes.map Node.handle).Nodup

section Allocates

variable {session middle later : Session}

theorem Session.allocates_nil (session later : Session) : session.Allocates later [] := by
  constructor <;> simp

theorem Session.allocates_singleton {node : Node} (hfresh : session.Fresh node)
    (hknown : later.Knows node) : session.Allocates later [node] := by
  constructor
  · simpa using hfresh
  · simpa using hknown
  · simp

theorem Session.Allocates.mono {nodes : List Node}
    (hnodes : session.Allocates middle nodes) (hlater : later.Extends middle) :
    session.Allocates later nodes :=
  { hnodes with known := fun node hnode => hlater node (hnodes.known node hnode) }

theorem Session.Allocates.append {nodes others : List Node}
    (hnodes : session.Allocates middle nodes) (hothers : middle.Allocates later others)
    (hmiddle : middle.Extends session) (hlater : later.Extends middle) :
    session.Allocates later (nodes ++ others) := by
  constructor
  · intro node hnode
    rcases List.mem_append.mp hnode with hnode | hnode
    · exact hnodes.fresh node hnode
    · exact (hothers.fresh node hnode).mono hmiddle
  · intro node hnode
    rcases List.mem_append.mp hnode with hnode | hnode
    · exact hlater node (hnodes.known node hnode)
    · exact hothers.known node hnode
  · rw [List.map_append, List.nodup_append]
    refine ⟨hnodes.nodup, hothers.nodup, ?_⟩
    intro handle hhandle other hother
    obtain ⟨node, hnode, rfl⟩ := List.mem_map.mp hhandle
    obtain ⟨made, hmade, rfl⟩ := List.mem_map.mp hother
    exact (hothers.fresh made hmade node (hnodes.known node hnode)).symm

end Allocates

/-! ## Tracing from a session -/

namespace Session

/-- A node was rebuilt over the given children: kept over its own, and made anew
over others. -/
def AnswersRebuilt (session : Session) (node : Node) (children : List Node) :
    Except NodeError Node → Session → Prop
  | .ok rebuilt, later => later.Knows rebuilt ∧ rebuilt.label = node.label ∧
      rebuilt.annotations = node.annotations ∧ rebuilt.children = children ∧
      (children = node.children → rebuilt = node) ∧
      (children ≠ node.children → session.Fresh rebuilt)
  | .error _, _ => True

def AnswersTraced (session : Session) (node : Node) :
    Except NodeError Trace → Session → Prop
  | .ok trace, later => trace.given = node ∧ later.Knows trace.result ∧
      trace.Everywhere (Trace.Minimal session) ∧
      session.Allocates later trace.allocated
  | .error _, _ => True

/-- Known children were traced, and their results fit their places. -/
def AnswersTracedAll (session : Session) (label : Label) (place : Nat)
    (children : List Node) : Except NodeError (List Trace) → Session → Prop
  | .ok traces, later => traces.map Trace.given = children ∧
      (∀ trace ∈ traces, later.Knows trace.result ∧
        trace.Everywhere (Trace.Minimal session)) ∧
      session.Allocates later (traces.flatMap Trace.allocated) ∧
      label.checkCategories place (traces.map Trace.result) = .ok ()
  | .error _, _ => True

end Session

section Tracing

variable {goes : Handle → Session → Prop} {rules : List Rule}
  (hreached : ∀ next later, goes next later → later.Reached)
  (hnext : ∀ next later, goes next later → later.next = next)
  (hrebuilds : Rebuilds goes)
  (hrules : ∀ rule ∈ rules, Serves goes (fun outcome => [outcome.node]) rule.apply)

include hreached hnext hrebuilds in
theorem leads_update_rebuilt {session : Session} {node : Node} {children : List Node}
    (hnode : session.Knows node) (hchildren : ∀ child ∈ children, session.Knows child)
    (hcategories : node.label.checkCategories 0 children = .ok ()) :
    Leads goes session (node.update children)
      (session.AnswersRebuilt node children) := by
  intro next hgoes
  obtain ⟨later, hlater, hfinal, hknown⟩ :=
    hrebuilds session node children hnode hchildren hcategories next hgoes
  refine ⟨later, hlater, hfinal, ?_⟩
  have hsound := (hreached next session hgoes).sound
  by_cases hare : Node.areAll children node.children = true
  · have hsame := hsound.eq_of_areAll hchildren
      (fun child hchild => hnode.child hchild) hare
    rw [Node.update, if_pos hare] at hknown ⊢
    exact ⟨hknown node List.mem_cons_self, rfl, rfl, hsame.symm, fun _ => rfl,
      fun hne => absurd hsame hne⟩
  · rw [Node.update, if_neg hare, Node.compose_eq] at hknown ⊢
    cases hparts : node.label.checkParts children with
    | error fault => trivial
    | ok =>
        rw [hparts] at hknown
        refine ⟨hknown _ List.mem_cons_self, rfl, rfl, rfl, ?_, ?_⟩
        · rintro rfl
          exact absurd (Node.areAll_self node.children) hare
        · intro _ old hold
          have hbounded := hsound.bounded old hold
          rw [hnext next session hgoes] at hbounded
          exact hbounded.ne'

include hrules in
theorem leads_answersOf {session : Session} {node : Node} (hnode : session.Knows node) :
    Leads (withJournal goes) session (Rewriter.answersOf rules node)
      fun result later => AnswersKnown ([·]) (result.map node.follow) later := by
  apply Leads.of_map
  rw [← Rewriter.applyRules_eq_follow]
  exact leads_applyRules hrules hnode

theorem leads_traceAll (label : Label) {children : List Node}
    (hchildren : ∀ child ∈ children, ∀ session : Session, session.Knows child →
      Leads (withJournal goes) session (Rewriter.traceNode rules child)
        (session.AnswersTraced child))
    (place : Nat) {session : Session}
    (hknown : ∀ child ∈ children, session.Knows child) :
    Leads (withJournal goes) session (Rewriter.traceAll rules label place children)
      (session.AnswersTracedAll label place children) := by
  induction children generalizing place session with
  | nil =>
      apply Leads.pure
      exact ⟨rfl, by simp, allocates_nil session session, rfl⟩
  | cons child rest ih =>
      unfold Rewriter.traceAll
      refine Leads.bind (hchildren child List.mem_cons_self session
        (hknown child List.mem_cons_self)) ?_ (fun _ _ _ _ => trivial)
      rintro trace middle hmiddle ⟨hgiven, hresult, hminimal, hallocated⟩
      refine Leads.bind Leads.ofExcept ?_ (fun _ _ _ _ => trivial)
      rintro expected _ - ⟨hexpect, rfl⟩
      refine Leads.bind (ih
        (fun other hother => hchildren other (List.mem_cons_of_mem child hother))
        (place + 1) (fun other hother =>
          hmiddle other (hknown other (List.mem_cons_of_mem child hother))))
        ?_ (fun _ _ _ _ => trivial)
      rintro traces later hlater ⟨hgivens, htraces, hallocateds, hcategories⟩
      apply Leads.pure
      refine ⟨?_, ?_, ?_, ?_⟩
      · rw [List.map_cons, hgiven, hgivens]
      · intro other hother
        rcases List.mem_cons.mp hother with rfl | hother
        · exact ⟨hlater _ hresult, hminimal⟩
        · obtain ⟨hknows, heverywhere⟩ := htraces other hother
          exact ⟨hknows, heverywhere.mono fun _ hpart => hpart.mono hmiddle⟩
      · rw [List.flatMap_cons]
        exact hallocated.append hallocateds hmiddle hlater
      · rw [List.map_cons, Label.checkCategories, ← hexpect]
        exact hcategories

theorem answersTraced_of_rebuilt {session middle later last : Session}
    (hmiddle : middle.Extends session) (hlater : later.Extends middle)
    (hlast : last.Extends later) (hsound : last.Sound)
    {node rebuilt : Node} {parts : List Trace} {answers : List Outcome}
    (hnode : session.Knows node)
    (hparts : session.AnswersTracedAll node.label 0 node.children (.ok parts) middle)
    (hrebuilt : middle.AnswersRebuilt node (parts.map Trace.result) (.ok rebuilt) later)
    (hresult : last.Knows (rebuilt.follow answers)) :
    session.AnswersTraced node (.ok ⟨node, parts, rebuilt, answers⟩) last := by
  obtain ⟨hgiven, htraces, hallocated, -⟩ := hparts
  obtain ⟨hknown, hlabel, hannotations, hchildren, hkept, hnew⟩ := hrebuilt
  have hreallocated : rebuilt.handle ≠ node.handle ↔
      parts.map Trace.result ≠ node.children := by
    constructor
    · intro hne hsame
      exact hne (congrArg Node.handle (hkept hsame))
    · intro hne
      exact hnew hne node (hmiddle node hnode)
  have hrenewed : (∃ part ∈ parts, part.Renewed) ↔
      parts.map Trace.result ≠ node.children := by
    rw [← hgiven]
    exact Trace.exists_renewed_iff fun part hpart =>
      (htraces part hpart).2.self.eq_given
  have hminimal : Trace.Minimal session ⟨node, parts, rebuilt, answers⟩ := by
    constructor
    · exact hgiven
    · exact hlabel
    · exact hannotations
    · exact hchildren
    · exact hreallocated.trans hrenewed.symm
    · exact fun hold => hkept (not_not.mp (mt hreallocated.mpr hold))
    · exact fun hmade => (hnew (hreallocated.mp hmade)).mono hmiddle
    · exact fun hsame => hsound.coherent _ _ hresult (hlast rebuilt hknown)
        (not_not.mp hsame)
    · exact fun hsame => hsound.coherent _ _ hresult
        ((hlast.trans hlater).trans hmiddle node hnode) (not_not.mp hsame)
  refine ⟨rfl, hresult, ?_, ?_⟩
  · exact Trace.everywhere_iff.mpr
      ⟨hminimal, fun part hpart => (htraces part hpart).2⟩
  · by_cases hmade : Trace.Reallocated ⟨node, parts, rebuilt, answers⟩
    · rw [Trace.allocated_of_reallocated hmade]
      exact hallocated.append
        (allocates_singleton (hnew (hreallocated.mp hmade)) (hlast rebuilt hknown))
        hmiddle (hlast.trans hlater)
    · rw [Trace.allocated_of_not_reallocated hmade]
      exact hallocated.mono (hlast.trans hlater)

include hreached hnext hrebuilds hrules

theorem leads_traceNode {node : Node} {session : Session} (hnode : session.Knows node) :
    Leads (withJournal goes) session (Rewriter.traceNode rules node)
      (session.AnswersTraced node) := by
  induction node using Node.inductionOn generalizing session with
  | step node ih =>
      rw [Rewriter.traceNode_eq]
      refine Leads.bind (leads_traceAll node.label
        (fun child hchild session hchild' => ih child hchild hchild') 0
        (fun child hchild => hnode.child hchild)) ?_ (fun _ _ _ _ => trivial)
      intro parts middle hmiddle hparts
      have hresults : ∀ child ∈ parts.map Trace.result, middle.Knows child := by
        intro child hchild
        obtain ⟨part, hpart, rfl⟩ := List.mem_map.mp hchild
        exact (hparts.2.1 part hpart).1
      refine Leads.bind (Leads.ofBuild fun _ => leads_update_rebuilt hreached hnext
        hrebuilds (hmiddle node hnode) hresults hparts.2.2.2) ?_
        (fun _ _ _ _ => trivial)
      intro rebuilt later hlater hrebuilt
      refine Leads.bind (leads_answersOf hrules hrebuilt.1) ?_
        (fun _ _ _ _ => trivial)
      intro answers last hlast hresult
      apply Leads.goesWith
      intro store hgoes
      apply Leads.pure
      exact answersTraced_of_rebuilt hmiddle hlater hlast
        (hreached store.next last hgoes).sound hnode hparts hrebuilt
        (hresult _ List.mem_cons_self)

end Tracing

theorem Rewriter.isChanged_outcome (given result : Node) :
    (outcome given result).isChanged = false ↔ result.handle = given.handle := by
  by_cases his : result.is given = true
  · rw [outcome, if_pos his]
    simpa [Outcome.isChanged, Node.is] using his
  · rw [outcome, if_neg his]
    simpa [Outcome.isChanged, Node.is] using his

/-- A pass over a known plan has a minimal trace, which ends in a reached session. -/
theorem Rewriter.exists_minimal_trace {session : Session} (hreached : session.Reached)
    {node : Node} (hnode : session.Knows node) {rewriter : Rewriter}
    (hrules : ∀ rule ∈ rewriter.rules,
      Serves session.ReachedFrom (fun outcome => [outcome.node]) rule.apply)
    {store store' : Store Journal} {answer : Outcome} (hstore : session.next ≤ store.next)
    (hrun : rewriter.rewrite node store = .ok answer store') :
    ∃ (trace : Trace) (later : Session), answer = outcome node trace.result ∧
      trace.given = node ∧ later.Reached ∧ later.Extends session ∧
      later.Knows trace.result ∧ trace.Everywhere (Trace.Minimal session) ∧
      trace.Everywhere (Trace.Ran rewriter.rules) := by
  obtain ⟨trace, htrace, hanswer⟩ := exists_trace_of_rewrite hrun
  have hextends : Extends ⟨store.next, session.held⟩ session := fun _ hknown => hknown
  have hlater : Knows ⟨store.next, session.held⟩ node := hnode
  obtain ⟨later, hend, hgoes, htraced⟩ :=
    leads_traceNode (fun _ _ hgoes => hgoes.1) (fun _ _ hgoes => hgoes.2.1)
      (rebuilds_reachedFrom session) hrules hlater store
      ⟨.forget session _ hreached hstore (fun _ hknown => hknown), rfl, hextends⟩
  rw [htrace] at hgoes htraced
  obtain ⟨hgiven, hknown, hminimal, -⟩ := htraced
  exact ⟨trace, later, hanswer, hgiven, hgoes.1, hend.trans hextends, hknown,
    hminimal.mono fun _ hpart => hpart.mono hextends, ran_of_traceNode htrace⟩

/-- A pass keeps the nodes at and below which no rule answers a change.  It makes a
node exactly where one of the children was renewed, under a handle of its own and
with the label and the annotations of the old one.  So a single replacement makes
one node for each position above it and leaves all that hangs off the way there.
The pass answers that nothing was changed exactly when it answers the given node. -/
theorem rewriting_reallocates_minimally {goes : Handle → Session → Prop}
    {session : Session} {rewriter : Rewriter}
    (hreached : ∀ next later, goes next later → later.Reached)
    (hnext : ∀ next later, goes next later → later.next = next)
    (hrebuilds : Rebuilds goes)
    (hrules : ∀ rule ∈ rewriter.rules,
      Serves goes (fun outcome => [outcome.node]) rule.apply)
    {node : Node} (hnode : session.Knows node) {store store' : Store Journal}
    {outcome : Outcome} (hgoes : goes store.next session)
    (hrun : rewriter.rewrite node store = .ok outcome store') :
    ∃ trace : Trace,
      Rewriter.traceNode rewriter.rules node store = .ok trace store' ∧
      outcome.node = trace.result ∧
      (∀ path, (trace.at? path).map Trace.given = node.at? path) ∧
      (∀ path part, trace.at? path = some part →
        part.parts.map Trace.given = part.given.children ∧
        (part.Quiet → part.result = part.given) ∧
        (part.Reallocated ↔ ∃ child ∈ part.parts, child.Renewed) ∧
        (part.Reallocated → session.Fresh part.rebuilt ∧
          part.rebuilt.label = part.given.label ∧
          part.rebuilt.annotations = part.given.annotations ∧
          part.rebuilt.children = part.parts.map Trace.result)) ∧
      (trace.allocated.map Node.handle).Nodup ∧
      (∀ path, trace.ReplacesOnlyAt path →
        trace.allocated.length = path.length ∧
        (∀ other part, trace.at? other = some part →
          (part.Reallocated ↔ other <+: path ∧ other ≠ path) ∧
          (other <+: path → outcome.node.at? other = some part.result)) ∧
        ∀ other, ¬ other <+: path → ¬ path <+: other →
          outcome.node.at? other = node.at? other) ∧
      (outcome.isChanged = false ↔ outcome.node.handle = node.handle) := by
  obtain ⟨trace, htrace, rfl⟩ := Rewriter.exists_trace_of_rewrite hrun
  obtain ⟨later, -, -, hanswer⟩ :=
    leads_traceNode hreached hnext hrebuilds hrules hnode store hgoes
  rw [htrace] at hanswer
  obtain ⟨rfl, -, hminimal, hallocated⟩ := hanswer
  rw [Rewriter.isChanged_outcome, Rewriter.node_outcome]
  refine ⟨trace, htrace, rfl, ?_, ?_, hallocated.nodup, ?_, Iff.rfl⟩
  · exact Trace.map_given_at? fun path part hpart => (hminimal path part hpart).parts
  · intro path part hpart
    have hpartMinimal := hminimal path part hpart
    refine ⟨hpartMinimal.parts, ?_, hpartMinimal.reallocated_iff, ?_⟩
    · exact fun hquiet => hquiet.still.result_eq (hminimal.at hpart)
    · exact fun hreallocated => ⟨hpartMinimal.fresh hreallocated, hpartMinimal.label,
        hpartMinimal.annotations, hpartMinimal.children⟩
  · intro path hone
    refine ⟨hone.length_allocated hminimal, ?_, ?_⟩
    · intro other part hpart
      refine ⟨hone.reallocated_iff hminimal hpart, ?_⟩
      intro hprefix
      rw [hone.at?_result hminimal fun hbelow => hprefix.eq_of_length_le hbelow.length_le,
        hpart, Option.map_some]
    · exact fun other habove hbelow => hone.at?_eq hminimal habove hbelow

end

open Session
open scoped Hints

/-- Two joins over a table that is replaced; the predicate of the upper one hangs
off the way. -/
theorem rewriting_reallocates_minimally_joins :
    ∃ (session : Session) (join table predicate other : Node) (rewriter : Rewriter)
      (store store' : Store Journal) (outcome : Outcome) (trace : Trace),
      session.ReachedFrom store.next session ∧ session.Knows join ∧
        (∀ rule ∈ rewriter.rules,
          Serves session.ReachedFrom (fun outcome => [outcome.node]) rule.apply) ∧
        rewriter.rewrite join store = .ok outcome store' ∧
        Rewriter.traceNode rewriter.rules join store = .ok trace store' ∧
        join.at? [0, 0] = some table ∧ trace.ReplacesOnlyAt [0, 0] ∧
        trace.allocated.length = 2 ∧ outcome.node.at? [0, 0] = some other ∧
        outcome.node.at? [1] = some predicate ∧ outcome.node.handle ≠ join.handle := by
  let table := (Label.table "t" none none).node 0 .empty []
  let other := (Label.table "u" none none).node 1 .empty []
  let predicate := (Label.column none "c" .boolean).node 2 .empty []
  let apply := (Label.join .crossApply).node 3 .empty [table]
  let join := (Label.joinOn .left).node 4 .empty [apply, predicate]
  let session : Session := ⟨5, [join, apply, predicate, other, table]⟩
  have htable : Reached ⟨1, [table]⟩ := (Reached.start 0).assemble (by simp) rfl
  have hother : Reached ⟨2, [other, table]⟩ := htable.assemble (by simp) rfl
  have hpredicate : Reached ⟨3, [predicate, other, table]⟩ :=
    hother.assemble (by simp) rfl
  have happly : Reached ⟨4, [apply, predicate, other, table]⟩ :=
    hpredicate.assemble (by simp) rfl
  have hreached : session.Reached := happly.assemble (by simp) rfl
  have hknowsJoin : session.Knows join := knows_of_mem_held (by simp [session])
  have hknowsOther : session.Knows other := knows_of_mem_held (by simp [session])
  let rewriter : Rewriter := .ofRules [(Replacement.mk table other).rule]
  have hrules : ∀ rule ∈ rewriter.rules,
      Serves session.ReachedFrom (fun outcome => [outcome.node]) rule.apply := by
    intro rule hrule later node hnode
    rw [List.mem_singleton.mp hrule]
    apply Leads.goesWith
    rintro next ⟨-, -, hbase⟩
    change Leads _ later (Replacement.apply ⟨table, other⟩ node) _
    unfold Replacement.apply
    split
    · exact Leads.pure (by simpa [AnswersKnown, Outcome.node] using hbase _ hknowsOther)
    · exact Leads.pure (by simpa [AnswersKnown, Outcome.node] using hnode)
  let apply' := (Label.join .crossApply).node 5 .empty [other]
  let join' := (Label.joinOn .left).node 6 .empty [apply', predicate]
  let store' : Store Journal := ⟨7, [.ruleApplied "ReplaceNodeRule" .table .table]⟩
  have hrun : rewriter.rewrite join ⟨5, []⟩ = .ok (.changed join') store' := rfl
  have hgoes : session.ReachedFrom 5 session := ⟨hreached, rfl, .refl session⟩
  let trace : Trace :=
    ⟨join, [⟨apply, [⟨table, [], table, [.changed other]⟩], apply',
      [.unchanged apply']⟩, ⟨predicate, [], predicate, [.unchanged predicate]⟩],
      join', [.unchanged join']⟩
  have htrace : Rewriter.traceNode rewriter.rules join ⟨5, []⟩ = .ok trace store' := rfl
  have hone : trace.ReplacesOnlyAt [0, 0] := by
    constructor
    · exact ⟨⟨table, [], table, [.changed other]⟩, rfl, Nat.one_ne_zero⟩
    · intro path part hpart hreplaced
      rcases path with _ | ⟨_ | _ | place, rest⟩
      · cases hpart
        exact absurd rfl hreplaced
      · rcases rest with _ | ⟨_ | place, _ | ⟨deeper, rest⟩⟩
        · cases hpart
          exact absurd rfl hreplaced
        · rfl
        · cases hpart
        · cases hpart
        · cases hpart
      · rcases rest with _ | ⟨place, rest⟩
        · cases hpart
          exact absurd rfl hreplaced
        · cases hpart
      · cases hpart
  obtain ⟨_, htrace', -, -, -, -, hways, hchanged⟩ :=
    rewriting_reallocates_minimally (fun _ _ hgoes => hgoes.1)
      (fun _ _ hgoes => hgoes.2.1) (rebuilds_reachedFrom session) hrules hknowsJoin
      hgoes hrun
  rw [htrace] at htrace'
  cases htrace'
  obtain ⟨hlength, hparts, hoff⟩ := hways [0, 0] hone
  refine ⟨session, join, table, predicate, other, rewriter, ⟨5, []⟩, store',
    .changed join', trace, hgoes, hknowsJoin, hrules, hrun, htrace, rfl, hone, hlength,
    ?_, ?_, ?_⟩
  · exact (hparts [0, 0] _ rfl).2 (List.prefix_refl [0, 0])
  · exact hoff [1] (by decide) (by decide)
  · exact mt hchanged.mpr (by decide)

end QueryPlan
