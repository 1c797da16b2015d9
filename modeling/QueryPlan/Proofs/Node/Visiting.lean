import QueryPlan.Proofs.Attempt
import QueryPlan.Proofs.Node.Stations

/-!
# Visits

The calls that a visit makes are read as replies, each of which the visitor gives from the
state that the one before it has left.  They cover the stations of the plan, and what the
visit answers is told from them.
-/

namespace QueryPlan

variable [ForeignTypes]

/-! ## Replies one after another -/

variable {σ : Type}

namespace Visitor

def call (visitor : Visitor σ) : Stage → Node → Attempt σ Recursion
  | .before => visitor.before
  | .after => visitor.after

/-- The visitor gives the replies one after another, each from the state that the one before
it has left. -/
inductive Gives (visitor : Visitor σ) : σ → List Reply → σ → Prop
  | nil (state : σ) : Gives visitor state [] state
  | cons {state last : σ} {reply : Reply} {replies : List Reply} :
      answer (visitor.call reply.stage reply.node state) = reply.answer →
      Gives visitor (final (visitor.call reply.stage reply.node state)) replies last →
      Gives visitor state (reply :: replies) last

variable {visitor : Visitor σ} {state middle last : σ} {replies others : List Reply}

theorem Gives.append (hreplies : visitor.Gives state replies middle)
    (hothers : visitor.Gives middle others last) :
    visitor.Gives state (replies ++ others) last := by
  induction hreplies with
  | nil => exact hothers
  | cons hreply _ ih => exact .cons hreply (ih hothers)

theorem gives_atTop (visitor : Visitor σ) (stage : Stage) (node : Node) (state : σ) :
    visitor.Gives state [.atTop stage node (answer (visitor.call stage node state))]
      (final (visitor.call stage node state)) :=
  .cons rfl (.nil _)

/-- Where in the plan a reply was given is nothing to the visitor. -/
theorem Gives.map_below (hreplies : visitor.Gives state replies last) (place : Nat) :
    visitor.Gives state (replies.map (Reply.below place)) last := by
  induction hreplies with
  | nil state => exact .nil state
  | cons hreply _ ih => exact .cons hreply ih

end Visitor

namespace Node

variable (visitor : Visitor σ)

theorem visit_eq (node : Node) :
    node.visit visitor = (do
      match ← visitor.before node with
      | .proceed =>
          match ← visitAll visitor node.children with
          | .proceed => visitor.after node
          | .skip => return .proceed
          | .stop => return .stop
      | .skip => return .proceed
      | .stop => return .stop) := by
  cases node
  rfl

theorem answer_visitAll_ne_skip (nodes : List Node) (state : σ) :
    answer (visitAll visitor nodes state) ≠ .ok .skip := by
  induction nodes generalizing state with
  | nil => simp [visitAll, answer, pure, EStateM.pure]
  | cons node rest ih =>
      rw [visitAll]
      cases hvisit : node.visit visitor state with
      | error fault middle =>
          rw [Attempt.bind_of_eq_error hvisit]
          simp [answer]
      | ok recursion middle =>
          rw [Attempt.bind_of_eq_ok hvisit]
          cases recursion with
          | proceed => exact ih middle
          | skip | stop => simp [answer, pure, EStateM.pure]

/-- The replies of which a visit of a plan that ran like this consists.  The visit answers a
skip exactly if one of them is to leave out the siblings of the plan. -/
def VisitCovered (node : Node) (state : σ) (run : EStateM.Result NodeError σ Recursion) :
    Prop :=
  ∃ replies, visitor.Gives state replies (final run) ∧
    Covers node.stations replies (answer run) ∧
    (answer run = .ok .skip ↔ ∃ reply ∈ replies, reply.PassesSiblings)

theorem exists_replies_visitAll (place : Nat) {nodes : List Node}
    (hnodes : ∀ node ∈ nodes, ∀ state,
      VisitCovered visitor node state (node.visit visitor state)) (state : σ) :
    ∃ replies, visitor.Gives state replies (final (visitAll visitor nodes state)) ∧
      Covers (stationsAll place nodes) replies (answer (visitAll visitor nodes state)) := by
  induction nodes generalizing place state with
  | nil => exact ⟨[], .nil state, .nil⟩
  | cons node rest ih =>
      obtain ⟨hnode, hrest⟩ := List.forall_mem_cons.mp hnodes
      obtain ⟨replies, hgives, hcovers, hpasses⟩ := hnode state
      rw [visitAll, stationsAll]
      cases hvisit : node.visit visitor state with
      | error fault middle =>
          rw [hvisit] at hgives hcovers
          rw [Attempt.bind_of_eq_error hvisit]
          exact ⟨replies.map (Reply.below place), hgives.map_below place,
            (Broken.below hcovers place).append_left _⟩
      | ok recursion middle =>
          rw [hvisit] at hgives hcovers hpasses
          rw [Attempt.bind_of_eq_ok hvisit]
          cases recursion with
          | stop =>
              exact ⟨replies.map (Reply.below place), hgives.map_below place,
                (Broken.below hcovers place).append_left _⟩
          | skip =>
              -- All later siblings are closed.
              obtain ⟨reply, hreply, hpasses⟩ := hpasses.mp rfl
              refine ⟨replies.map (Reply.below place), hgives.map_below place,
                (Complete.below hcovers place).append_closed ?_⟩
              intro station hstation
              obtain ⟨later, inner, hposition, hlater⟩ :=
                exists_position_of_mem_stationsAll hstation
              exact ⟨reply.below place, List.mem_map_of_mem hreply,
                (Reply.closes_of_below hposition hlater).mpr hpasses⟩
          | proceed =>
              -- No reply below the first child passes its siblings, so that the stations of
              -- the later children are as open as without it.
              obtain ⟨others, hothers, hcovered⟩ := ih (place + 1) hrest middle
              refine ⟨replies.map (Reply.below place) ++ others,
                (hgives.map_below place).append hothers,
                (Complete.below hcovers place).append_covers hcovered ?_ ?_⟩
              · intro reply hreply station hstation
                obtain ⟨inner, hinner, rfl⟩ := List.mem_map.mp hreply
                obtain ⟨later, _, hposition, hlater⟩ :=
                  exists_position_of_mem_stationsAll hstation
                rw [← Bool.not_eq_true, Reply.closes_of_below hposition hlater]
                intro hinnerPasses
                cases hpasses.mpr ⟨inner, hinner, hinnerPasses⟩
              · intro reply hreply station hstation
                obtain ⟨inner, -, rfl⟩ := List.mem_map.mp hstation
                obtain ⟨later, _, hposition, hlater⟩ :=
                  exists_position_of_mem_stationsAll (hcovered.mem hreply)
                exact Reply.closes_of_later hposition hlater

/-! ### At the top of a plan -/

section Top

variable {node : Node} {result : Except NodeError Recursion} {inner : List Reply}

/-- The first station of a plan is never closed. -/
theorem closes_first (reply : Reply) : reply.closes ⟨.before, [], node⟩ = false := by
  simp [← Bool.not_eq_true, Reply.closes_top_iff, Station.isBefore]

theorem position_ne_nil_of_covers (hinner : Covers (stationsAll 0 node.children) inner result)
    {reply : Reply} (hreply : reply ∈ inner) : reply.position ≠ [] := by
  obtain ⟨_, _, hposition, -⟩ := exists_position_of_mem_stationsAll (hinner.mem hreply)
  simp [hposition]

theorem complete_of_skip : Complete node.stations [.atTop .before node (.ok .skip)] := by
  have hfirst : Complete [⟨.before, [], node⟩] [.atTop .before node (.ok .skip)] :=
    covers_singleton (closes_first (.atTop .before node (.ok .skip)))
  rw [stations_eq, ← List.singleton_append]
  refine hfirst.append_closed fun station hstation => ?_
  refine ⟨_, List.mem_singleton_self _, Reply.closes_of_top rfl rfl rfl ?_⟩
  rcases List.mem_append.mp hstation with hbelow | hlast
  · obtain ⟨_, _, hposition, -⟩ := exists_position_of_mem_stationsAll hbelow
    exact .inl (by simp [hposition])
  · rw [List.mem_singleton.mp hlast]
    exact .inr rfl

theorem covers_of_ends (hends : EndsVisit result) :
    Covers node.stations [.atTop .before node result] result := by
  have hfirst : Covers [⟨.before, [], node⟩] [.atTop .before node result] result :=
    covers_singleton (closes_first (.atTop .before node result))
  rw [stations_eq]
  exact hfirst.append_left hends _

/-- The visit goes on from the first station to those below. -/
theorem covers_of_proceed (hinner : Covers (stationsAll 0 node.children) inner result) :
    Covers (⟨.before, [], node⟩ :: stationsAll 0 node.children)
      (.atTop .before node (.ok .proceed) :: inner) result := by
  have hfirst : Complete [⟨.before, [], node⟩] [.atTop .before node (.ok .proceed)] :=
    covers_singleton (closes_first (.atTop .before node (.ok .proceed)))
  refine hfirst.append_covers hinner ?_ ?_
  · intro reply hreply station _
    rw [List.mem_singleton.mp hreply]
    exact Reply.closes_of_not_skips rfl
  · intro reply _ station hstation
    rw [List.mem_singleton.mp hstation]
    exact closes_first reply

theorem covers_of_ends_below (hinner : Covers (stationsAll 0 node.children) inner result)
    (hends : EndsVisit result) :
    Covers node.stations (.atTop .before node (.ok .proceed) :: inner) result := by
  rw [stations_eq, ← List.cons_append]
  exact (covers_of_proceed hinner).append_left hends _

/-- The visit goes on from the stations below to the last one. -/
theorem covers_of_complete (hinner : Covers (stationsAll 0 node.children) inner (.ok .proceed)) :
    Covers node.stations
      (.atTop .before node (.ok .proceed) :: inner ++ [.atTop .after node result]) result := by
  have hfirst : Complete (⟨.before, [], node⟩ :: stationsAll 0 node.children)
      (.atTop .before node (.ok .proceed) :: inner) := covers_of_proceed hinner
  have hopen : (Reply.atTop .after node result).closes ⟨.after, [], node⟩ = false :=
    Reply.closes_of_last rfl rfl
  have hlast : Covers [⟨.after, [], node⟩] [.atTop .after node result] result :=
    covers_singleton hopen
  rw [stations_eq, ← List.cons_append]
  refine hfirst.append_covers hlast ?_ ?_
  · intro reply hreply station hstation
    rw [List.mem_singleton.mp hstation, ← Bool.not_eq_true, Reply.closes_top_iff rfl]
    rintro ⟨htop, -, hskips, -⟩
    rcases List.mem_cons.mp hreply with rfl | hreply
    · cases hskips
    · exact position_ne_nil_of_covers hinner hreply htop
  · intro reply hreply station _
    rw [List.mem_singleton.mp hreply]
    exact Reply.closes_of_last rfl rfl

theorem not_passesSiblings_of_covers
    (hinner : Covers (stationsAll 0 node.children) inner result) :
    ∀ reply ∈ Reply.atTop .before node (.ok .proceed) :: inner, ¬ reply.PassesSiblings := by
  rintro reply hreply ⟨htop, hafter, -⟩
  rcases List.mem_cons.mp hreply with rfl | hreply
  · cases hafter
  · exact position_ne_nil_of_covers hinner hreply htop

theorem not_passesSiblings_first :
    ∀ reply ∈ [Reply.atTop .before node result], ¬ reply.PassesSiblings := by
  rintro reply hreply ⟨-, hafter, -⟩
  rw [List.mem_singleton.mp hreply] at hafter
  cases hafter

theorem exists_passesSiblings_iff {replies : List Reply}
    (hnone : ∀ reply ∈ replies, ¬ reply.PassesSiblings) :
    (∃ reply ∈ replies ++ [.atTop .after node result], reply.PassesSiblings) ↔
      result = .ok .skip := by
  have hlast : (Reply.atTop .after node result).PassesSiblings ↔ result = .ok .skip := by
    refine ⟨fun hpasses => ?_, fun hskip => ⟨rfl, rfl, by rw [hskip]; rfl⟩⟩
    obtain ⟨-, -, hskips⟩ := hpasses
    match result, hskips with
    | .ok .skip, _ => rfl
  constructor
  · rintro ⟨reply, hreply, hpasses⟩
    rcases List.mem_append.mp hreply with hearlier | hreply
    · exact absurd hpasses (hnone reply hearlier)
    · rw [List.mem_singleton.mp hreply] at hpasses
      exact hlast.mp hpasses
  · exact fun hskip => ⟨_, List.mem_append_right _ (List.mem_singleton_self _), hlast.mpr hskip⟩

end Top

variable {visitor} {node : Node} {state : σ} {run : EStateM.Result NodeError σ Recursion}

theorem VisitCovered.of_ne_skip {replies : List Reply}
    (hgives : visitor.Gives state replies (final run))
    (hcovers : Covers node.stations replies (answer run)) (hskip : answer run ≠ .ok .skip)
    (hnone : ∀ reply ∈ replies, ¬ reply.PassesSiblings) :
    VisitCovered visitor node state run :=
  ⟨replies, hgives, hcovers,
    iff_of_false hskip fun ⟨reply, hreply, hpasses⟩ => hnone reply hreply hpasses⟩

/-- A visit gets replies at the stations of the plan in order, at all but those that replies
before have closed, to the end or to the first reply that ends it. -/
theorem visitCovered (visitor : Visitor σ) (node : Node) (state : σ) :
    VisitCovered visitor node state (node.visit visitor state) := by
  induction node using Node.inductionOn generalizing state with
  | step node ih =>
      have hfirst := visitor.gives_atTop .before node state
      rw [Visitor.call] at hfirst
      rw [visit_eq]
      cases hbefore : visitor.before node state with
      | error fault middle =>
          rw [hbefore] at hfirst
          rw [Attempt.bind_of_eq_error hbefore]
          exact .of_ne_skip hfirst (covers_of_ends trivial) nofun not_passesSiblings_first
      | ok recursion middle =>
          rw [hbefore] at hfirst
          rw [Attempt.bind_of_eq_ok hbefore]
          cases recursion with
          | stop =>
              exact .of_ne_skip hfirst (covers_of_ends trivial) nofun
                not_passesSiblings_first
          | skip => exact .of_ne_skip hfirst complete_of_skip nofun not_passesSiblings_first
          | proceed =>
              -- Nothing that is answered below closes a station at the top.
              obtain ⟨inner, hinner, hcovers⟩ := exists_replies_visitAll visitor 0 ih middle
              have hgives := hfirst.append hinner
              have hnone := not_passesSiblings_of_covers hcovers
              have hnever := answer_visitAll_ne_skip visitor node.children middle
              dsimp only
              cases hbelow : visitAll visitor node.children middle with
              | error fault later =>
                  rw [hbelow] at hgives hcovers
                  rw [Attempt.bind_of_eq_error hbelow]
                  exact .of_ne_skip hgives (covers_of_ends_below hcovers trivial) nofun hnone
              | ok recursion later =>
                  rw [hbelow] at hgives hcovers hnever
                  rw [Attempt.bind_of_eq_ok hbelow]
                  cases recursion with
                  | stop =>
                      exact .of_ne_skip hgives (covers_of_ends_below hcovers trivial) nofun
                        hnone
                  | skip => exact absurd rfl hnever
                  | proceed =>
                      have hlast := visitor.gives_atTop .after node later
                      rw [Visitor.call] at hlast
                      exact ⟨_, hgives.append hlast, covers_of_complete hcovers,
                        (exists_passesSiblings_iff hnone).symm⟩

end Node

end QueryPlan
