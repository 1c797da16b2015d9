import QueryPlan.Node.Build
import QueryPlan.Proofs.Annotations.Hints
import QueryPlan.Proofs.Node.Visiting

/-!
# Records of visits

A visitor can write a record of the calls that are made to it, with its answers, and is
visited as before.  The record of a visit tells to which occurrences it comes.

`apply` is a visit that does nothing after the nodes below a node, so that its skips hide
only what is below.
-/

namespace QueryPlan

section

variable [ForeignTypes]

variable {σ : Type}

structure Visited where
  stage : Stage
  node : Node
  answer : Except NodeError Recursion

def Reply.visited (reply : Reply) : Visited :=
  ⟨reply.stage, reply.node, reply.answer⟩

/-- The operation, which now puts each call to it at the end of a record. -/
def Stage.recording (stage : Stage) (op : Node → Attempt σ Recursion) (node : Node) :
    Attempt (σ × List Visited) Recursion := fun (state, record) =>
  match op node state with
  | .ok recursion later => .ok recursion (later, record ++ [⟨stage, node, .ok recursion⟩])
  | .error fault later => .error fault (later, record ++ [⟨stage, node, .error fault⟩])

def Visitor.recorded (visitor : Visitor σ) : Visitor (σ × List Visited) where
  before := Stage.before.recording visitor.before
  after := Stage.after.recording visitor.after

section Recording

variable (stage : Stage) (op : Node → Attempt σ Recursion) (node : Node) (state : σ)
  (record : List Visited)

theorem Stage.answer_recording :
    answer (stage.recording op node (state, record)) = answer (op node state) := by
  simp only [recording]
  cases op node state <;> rfl

theorem Stage.final_recording :
    final (stage.recording op node (state, record)) =
      (final (op node state), record ++ [⟨stage, node, answer (op node state)⟩]) := by
  simp only [recording]
  cases op node state <;> rfl

theorem Stage.follows_recording :
    Follows (fun state recorded => recorded.1 = state) id (op node)
      (stage.recording op node) := by
  rintro _ ⟨state, record⟩ rfl
  rw [answer_recording, final_recording]
  exact ⟨rfl, by cases answer (op node state) <;> rfl⟩

end Recording

/-! ## Visits that follow one another -/

namespace Node

section Following

variable {τ υ : Type} {related : τ → υ → Prop} {visitor : Visitor τ} {visitor' : Visitor υ}

theorem follows_visitAll {nodes : List Node}
    (hnodes : ∀ node ∈ nodes,
      Follows related id (node.visit visitor) (node.visit visitor')) :
    Follows related id (visitAll visitor nodes) (visitAll visitor' nodes) := by
  induction nodes with
  | nil => exact .pure
  | cons node rest ih =>
      obtain ⟨hnode, hrest⟩ := List.forall_mem_cons.mp hnodes
      rw [visitAll, visitAll]
      refine hnode.bind fun recursion => ?_
      cases recursion with
      | proceed => exact ih hrest
      | skip | stop => exact .pure

/-- Visitors whose calls follow one another have visits that do. -/
theorem follows_visit
    (hbefore : ∀ node, Follows related id (visitor.before node) (visitor'.before node))
    (hafter : ∀ node, Follows related id (visitor.after node) (visitor'.after node))
    (node : Node) : Follows related id (node.visit visitor) (node.visit visitor') := by
  induction node using Node.inductionOn with
  | step node ih =>
      rw [visit_eq, visit_eq]
      refine (hbefore node).bind fun recursion => ?_
      cases recursion with
      | skip | stop => exact .pure
      | proceed =>
          refine (follows_visitAll ih).bind fun recursion => ?_
          cases recursion with
          | proceed => exact hafter node
          | skip | stop => exact .pure

end Following

theorem final_visit_recorded (visitor : Visitor σ) (node : Node) (state : σ)
    (record : List Visited) :
    (final (node.visit visitor.recorded (state, record))).1 =
      final (node.visit visitor state) := by
  have hfollows : Follows (fun state (recorded : σ × List Visited) => recorded.1 = state) id
      (node.visit visitor) (node.visit visitor.recorded) :=
    follows_visit (Stage.before.follows_recording visitor.before)
      (Stage.after.follows_recording visitor.after) node
  exact (hfollows state (state, record) rfl).1

end Node

/-! ## Calls and their record -/

namespace Visitor

variable {visitor : Visitor σ} {state last : σ} {replies : List Reply}

theorem Gives.exists_call (hgives : visitor.Gives state replies last) :
    ∀ reply ∈ replies, ∃ between,
      answer (visitor.call reply.stage reply.node between) = reply.answer := by
  induction hgives with
  | nil => simp
  | cons hreply _ ih => exact List.forall_mem_cons.mpr ⟨⟨_, hreply⟩, ih⟩

/-- A record to which every call adds what is written for the reply to it. -/
theorem Gives.record_eq {visitor : Visitor (σ × List Visited)} {start last : σ × List Visited}
    (hgives : visitor.Gives start replies last) (written : Reply → Option Visited)
    (hwritten : ∀ (reply : Reply) state record,
      answer (visitor.call reply.stage reply.node (state, record)) = reply.answer →
      (final (visitor.call reply.stage reply.node (state, record))).2 =
        record ++ (written reply).toList) :
    last.2 = start.2 ++ replies.filterMap written := by
  induction hgives with
  | nil => simp
  | cons hreply _ ih =>
      rw [ih, hwritten _ _ _ hreply, List.append_assoc, List.filterMap_cons]
      split <;> simp [*]

theorem call_recorded (visitor : Visitor σ) (stage : Stage) :
    visitor.recorded.call stage = stage.recording (visitor.call stage) := by
  cases stage <;> rfl

theorem Gives.of_recorded {start last : σ × List Visited}
    (hgives : visitor.recorded.Gives start replies last) :
    last.2 = start.2 ++ replies.map Reply.visited := by
  rw [← List.filterMap_eq_map]
  refine hgives.record_eq _ fun reply state record hreply => ?_
  rw [call_recorded, Stage.answer_recording] at hreply
  rw [call_recorded, Stage.final_recording, hreply]
  rfl

end Visitor

/-! ## Where a visit comes to -/

/-- The occurrences for which a visit with these replies calls the visitor before the nodes
below. -/
def arrivals (replies : List Reply) : List (List Nat × Node) :=
  (replies.filter (·.isBefore)).map (·.occurrence)

theorem arrivals_eq (replies : List Reply) :
    arrivals replies =
      ((replies.map Reply.toStation).filter Station.isBefore).map Station.occurrence := by
  rw [List.filter_map, List.map_map]
  rfl

theorem Reply.closes_before {station : Station} (hbefore : station.isBefore = true)
    (reply : Reply) : reply.closes station = reply.hides station.position := by
  simp [closes, hbefore]

theorem Reply.hides_eq_skipsAbove {reply : Reply}
    (hafter : reply.isBefore = false → reply.skips = false) (position : List Nat) :
    reply.hides position = reply.skipsAbove position := by
  cases hbefore : reply.isBefore with
  | false => simp [hides, skipsBeside, hafter hbefore]
  | true => simp [hides, skipsBeside, hbefore]

/-- The occurrences with an open station before the nodes below. -/
theorem Node.occurrences_of_openStations (node : Node) (replies : List Reply) :
    ((openStations replies node.stations).filter Station.isBefore).map Station.occurrence =
      node.occurrences.filter (fun (position, _) => !replies.any (·.hides position)) := by
  rw [← occurrences_of_stations, List.filter_map, openStations, List.filter_filter,
    List.filter_filter]
  congr 1
  refine List.filter_congr fun station _ => ?_
  cases hbefore : station.isBefore with
  | false => simp
  | true => simp [Reply.closes_before hbefore, Station.occurrence]

variable {node : Node} {replies : List Reply} {result : Except NodeError Recursion}

theorem Complete.arrivals_eq (hcomplete : Complete node.stations replies) :
    arrivals replies =
      node.occurrences.filter (fun (position, _) => !replies.any (·.hides position)) := by
  rw [QueryPlan.arrivals_eq, hcomplete.stations_eq, Node.occurrences_of_openStations]

theorem Covers.arrivals_prefix (hcovers : Covers node.stations replies result) :
    arrivals replies <+:
      node.occurrences.filter (fun (position, _) => !replies.any (·.hides position)) := by
  rw [arrivals_eq, ← Node.occurrences_of_openStations]
  exact (hcovers.stations_prefix.filter _).map _

/-- Without skips after the nodes below, only what is below a skipped node is hidden. -/
theorem any_hides_eq (hafter : ∀ reply ∈ replies, reply.isBefore = false → reply.skips = false)
    (position : List Nat) :
    replies.any (·.hides position) = replies.any (·.skipsAbove position) := by
  rw [Bool.eq_iff_iff, List.any_eq_true, List.any_eq_true]
  refine exists_congr fun reply => and_congr_right fun hreply => ?_
  rw [Reply.hides_eq_skipsAbove (hafter reply hreply)]

namespace Visitor

/-- The visitor answers no stops and does not fail. -/
def OnlySkips (visitor : Visitor σ) : Prop :=
  ∀ stage node state, ¬ EndsVisit (answer (visitor.call stage node state))

/-- With a visitor that answers no stops and does not fail, a visit comes once to every
occurrence but those that are below one skipped before the nodes below it, and those that
are or are below later siblings of one skipped after the nodes below it. -/
theorem OnlySkips.visit_arrives {visitor : Visitor σ} (hskips : visitor.OnlySkips)
    (node : Node) (state : σ) :
    ∃ replies : List Reply,
      final (node.visit visitor.recorded (state, [])) =
        (final (node.visit visitor state), replies.map Reply.visited) ∧
      replies.map Reply.toStation = openStations replies node.stations ∧
      arrivals replies =
        node.occurrences.filter (fun (position, _) => !replies.any (·.hides position)) ∧
      ((arrivals replies).map Prod.fst).Nodup ∧
      ((∀ reply ∈ replies, reply.isBefore = false → reply.skips = false) →
        arrivals replies =
          node.occurrences.filter (fun (position, _) =>
            !replies.any (·.skipsAbove position))) := by
  obtain ⟨replies, hgives, hcovers, -⟩ := node.visitCovered visitor.recorded (state, [])
  have hends : ∀ reply ∈ replies, ¬ reply.Ends := by
    intro reply hreply
    obtain ⟨⟨between, record⟩, hanswer⟩ := hgives.exists_call reply hreply
    rw [call_recorded, Stage.answer_recording] at hanswer
    rw [Reply.Ends, ← hanswer]
    exact hskips _ _ _
  have hcomplete := hcovers.complete hends
  have harrivals := hcomplete.arrivals_eq
  refine ⟨replies, Prod.ext ?_ hgives.of_recorded, hcomplete.stations_eq, harrivals, ?_,
    fun hafter => ?_⟩
  · exact node.final_visit_recorded visitor state []
  · rw [harrivals]
    exact node.nodup_occurrences.sublist (List.filter_sublist.map Prod.fst)
  · simpa only [any_hides_eq hafter] using harrivals

/-- Skips after the nodes with one label. -/
def skippingAfter (label : Label) : Visitor Unit where
  before _ := return .proceed
  after node := return if node.label = label then .skip else .proceed

theorem onlySkips_skippingAfter (label : Label) : (skippingAfter label).OnlySkips := by
  intro stage node state
  cases stage with
  | before => exact id
  | after =>
      change ¬ EndsVisit (.ok (if node.label = label then .skip else .proceed))
      split <;> exact id

end Visitor

end

section

open scoped Hints

namespace Visitor

/-- The left operand of a sum is skipped after it, and the visit does not come to the right
one. -/
theorem OnlySkips.visit_arrives_left :
    let left := (Label.column none "x" .integer).node 0 .empty []
    let right := (Label.column none "y" .integer).node 1 .empty []
    let sum := (Label.binary .add).node 2 .empty [left, right]
    (skippingAfter left.label).OnlySkips ∧ ∃ replies : List Reply,
      replies.map Reply.visited = [⟨.before, sum, .ok .proceed⟩, ⟨.before, left, .ok .proceed⟩,
        ⟨.after, left, .ok .skip⟩, ⟨.after, sum, .ok .proceed⟩] ∧
      arrivals replies =
        sum.occurrences.filter (fun (position, _) => !replies.any (·.hides position)) := by
  intro left right sum
  have hskips := onlySkips_skippingAfter left.label
  obtain ⟨replies, hrun, -, harrivals, -, -⟩ := hskips.visit_arrives sum ()
  exact ⟨hskips, replies, (congrArg Prod.snd hrun).symm, harrivals⟩

/-- The right operand of a sum is below no node that is skipped before the nodes below it, and
is hidden by what is answered after the left one. -/
theorem skip_after_hides_sibling :
    let left := (Label.column none "x" .integer).node 0 .empty []
    let right := (Label.column none "y" .integer).node 1 .empty []
    let sum := (Label.binary .add).node 2 .empty [left, right]
    (skippingAfter left.label).OnlySkips ∧
      (∀ node state, answer ((skippingAfter left.label).before node state) = .ok .proceed) ∧
      sum.preorder = [sum, left, right] ∧
      (final (sum.visit (skippingAfter left.label).recorded ((), []))).2 =
        [⟨.before, sum, .ok .proceed⟩, ⟨.before, left, .ok .proceed⟩,
          ⟨.after, left, .ok .skip⟩, ⟨.after, sum, .ok .proceed⟩] := by
  intro left right sum
  exact ⟨onlySkips_skippingAfter left.label, fun _ _ => rfl, rfl, rfl⟩

end Visitor

end

/-! ## Traversals before the nodes below -/

section

variable [ForeignTypes]

variable {σ : Type} {replies : List Reply}

/-- The operation as a visitor that does nothing after the nodes below a node. -/
def Visitor.ofApply (op : Node → Attempt σ Recursion) : Visitor σ where
  before := op
  after _ := return .proceed

namespace Node

variable (op : Node → Attempt σ Recursion)

theorem apply_eq (node : Node) :
    node.apply op = (do
      match ← op node with
      | .proceed => applyAll op node.children
      | .skip => return .proceed
      | .stop => return .stop) := by
  cases node
  rfl

theorem applyAll_eq_visitAll {nodes : List Node}
    (hnodes : ∀ node ∈ nodes, node.apply op = node.visit (.ofApply op)) :
    applyAll op nodes = visitAll (.ofApply op) nodes := by
  induction nodes with
  | nil => rfl
  | cons node rest ih =>
      obtain ⟨hnode, hrest⟩ := List.forall_mem_cons.mp hnodes
      rw [applyAll, visitAll, hnode, ih hrest]

/-- Nodes one after another never answer a skip, so that nothing comes after them. -/
theorem visitAll_bind_after (nodes : List Node) :
    (do
      match ← visitAll (.ofApply op) nodes with
      | .proceed => return .proceed
      | .skip => return .proceed
      | .stop => return .stop) = visitAll (.ofApply op) nodes := by
  funext state
  have hnever := answer_visitAll_ne_skip (.ofApply op) nodes state
  cases hrun : visitAll (.ofApply op) nodes state with
  | error fault later => exact Attempt.bind_of_eq_error hrun
  | ok recursion later =>
      rw [Attempt.bind_of_eq_ok hrun]
      rw [hrun] at hnever
      cases recursion with
      | proceed | stop => rfl
      | skip => exact absurd rfl hnever

theorem apply_eq_visit (node : Node) : node.apply op = node.visit (.ofApply op) := by
  induction node using Node.inductionOn with
  | step node ih =>
      rw [apply_eq, visit_eq, applyAll_eq_visitAll op ih]
      refine bind_congr fun recursion => ?_
      cases recursion with
      | proceed => exact (visitAll_bind_after op node.children).symm
      | skip | stop => rfl

theorem apply_recording (node : Node) (state : σ) (record : List Visited) :
    (final (node.apply (Stage.before.recording op) (state, record))).1 =
        final (node.apply op state) ∧
      answer (node.apply (Stage.before.recording op) (state, record)) =
        answer (node.apply op state) := by
  have hfollows : Follows (fun state (recorded : σ × List Visited) => recorded.1 = state) id
      (node.apply op) (node.apply (Stage.before.recording op)) := by
    rw [apply_eq_visit, apply_eq_visit]
    exact follows_visit (Stage.before.follows_recording op) (fun _ => .pure) node
  obtain ⟨hfinal, hanswer⟩ := hfollows state (state, record) rfl
  exact ⟨hfinal, by rw [hanswer, Except.map_id, id_eq]⟩

end Node

namespace Visitor

variable {op : Node → Attempt σ Recursion} {state last : σ}

theorem Gives.answer_after (hgives : (ofApply op).Gives state replies last) :
    ∀ reply ∈ replies, reply.isBefore = false → reply.answer = .ok .proceed := by
  rintro ⟨⟨stage, position, node⟩, result⟩ hreply hafter
  obtain ⟨between, hanswer⟩ := hgives.exists_call _ hreply
  cases stage with
  | before => cases hafter
  | after => exact hanswer.symm

theorem Gives.of_ofApply {start last : σ × List Visited}
    (hgives : (ofApply (Stage.before.recording op)).Gives start replies last) :
    last.2 = start.2 ++ (replies.filter (·.isBefore)).map Reply.visited := by
  rw [← List.filterMap_eq_map, List.filterMap_filter]
  refine hgives.record_eq _ fun reply state record hreply => ?_
  obtain ⟨⟨stage, position, node⟩, result⟩ := reply
  cases stage with
  | before =>
      simp only [call, ofApply, Stage.answer_recording] at hreply
      simp only [call, ofApply, Stage.final_recording, hreply]
      rfl
  | after => exact (List.append_nil _).symm

end Visitor

section Pruning

variable {op : Node → Attempt σ Recursion} {state last : σ}

theorem Visitor.Gives.skips_after (hgives : (Visitor.ofApply op).Gives state replies last) :
    ∀ reply ∈ replies, reply.isBefore = false → reply.skips = false := by
  intro reply hreply hafter
  rw [Reply.skips, hgives.answer_after reply hreply hafter]

theorem Visitor.Gives.isBefore_of_ends (hgives : (Visitor.ofApply op).Gives state replies last) :
    ∀ reply ∈ replies, reply.Ends → reply.isBefore = true := by
  intro reply hreply hends
  by_contra hafter
  rw [Reply.Ends, hgives.answer_after reply hreply (by simpa using hafter)] at hends
  exact hends

theorem any_skipsAbove_filter (replies : List Reply) (position : List Nat) :
    (replies.filter (·.isBefore)).any (·.skipsAbove position) =
      replies.any (·.skipsAbove position) := by
  rw [List.any_filter]
  refine List.any_congr rfl fun reply => ?_
  cases hstage : reply.isBefore <;> simp [Reply.skipsAbove, hstage]

/-- `apply` calls the operation on the occurrences in preorder, but not on those below one
that it skips, to the end or to the first call that stops or fails, and answers a stop or a
failure exactly if that call does. -/
theorem apply_prunes_preorder (op : Node → Attempt σ Recursion) (node : Node) (state : σ) :
    ∃ calls : List Reply,
      final (node.apply (Stage.before.recording op) (state, [])) =
        (final (node.apply op state), calls.map Reply.visited) ∧
      calls.map (·.occurrence) <+:
        node.occurrences.filter (fun (position, _) => !calls.any (·.skipsAbove position)) ∧
      ((∀ call ∈ calls, ¬ call.Ends) → calls.map (·.occurrence) =
        node.occurrences.filter (fun (position, _) => !calls.any (·.skipsAbove position))) ∧
      calls.Pairwise (fun call _ => ¬ call.Ends) ∧
      (answer (node.apply op state) = .ok .stop ↔ ∃ call ∈ calls, call.answer = .ok .stop) ∧
      (∀ fault, answer (node.apply op state) = .error fault ↔
        ∃ call ∈ calls, call.answer = .error fault) ∧
      answer (node.apply op state) ≠ .ok .skip := by
  obtain ⟨replies, hgives, hcovers, hpasses⟩ :=
    node.visitCovered (.ofApply (Stage.before.recording op)) (state, [])
  have hskips := hgives.skips_after
  have hbefore := hgives.isBefore_of_ends
  obtain ⟨hfinal, hanswer⟩ := node.apply_recording op state []
  rw [← Node.apply_eq_visit] at hgives hcovers hpasses
  rw [hanswer] at hcovers hpasses
  have hending {ending : Except NodeError Recursion} (hends : EndsVisit ending) :
      answer (node.apply op state) = ending ↔
        ∃ call ∈ replies.filter (·.isBefore), call.answer = ending := by
    rw [hcovers.eq_iff_of_ends hends]
    refine exists_congr fun reply => ?_
    rw [List.mem_filter, and_assoc]
    refine and_congr_right fun hreply => ⟨?_, And.right⟩
    rintro rfl
    exact ⟨hbefore reply hreply hends, rfl⟩
  have hpruned : ∀ position, (replies.filter (·.isBefore)).any (·.skipsAbove position) =
      replies.any (·.hides position) := fun position => by
    rw [any_skipsAbove_filter, any_hides_eq hskips]
  refine ⟨replies.filter (·.isBefore), Prod.ext hfinal hgives.of_ofApply, ?_, ?_, ?_,
    hending trivial, fun fault => hending trivial, ?_⟩
  · simp only [hpruned]
    exact hcovers.arrivals_prefix
  · intro hnone
    have hcomplete := hcovers.complete fun reply hreply hends =>
      hnone reply (List.mem_filter.mpr ⟨hreply, hbefore reply hreply hends⟩) hends
    simp only [hpruned]
    exact hcomplete.arrivals_eq
  · exact hcovers.pairwise.filter _
  · intro hskip
    obtain ⟨reply, hreply, -, hafter, hskipped⟩ := hpasses.mp hskip
    rw [hskips reply hreply hafter] at hskipped
    cases hskipped

end Pruning

end

end QueryPlan
