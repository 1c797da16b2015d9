import QueryPlan.Node.Traversal
import QueryPlan.Proofs.Node.Occurrences

/-!
# Stations of a visit

A visit comes to every node twice, before and after the nodes below it.  These are its
stations.  At a station the visitor replies, and its reply may close stations that are
still ahead: a node that is skipped before the nodes below it closes everything inside it,
and one that is skipped after them closes its later siblings with all that is below them.

Replies cover stations if they were given at all that are not closed, in order, up to the
end or to the first reply that ends the visit.
-/

namespace QueryPlan

variable [ForeignTypes]

/-- When a visitor is given a node: before the nodes below it or after them. -/
inductive Stage where
  | before
  | after
  deriving DecidableEq

structure Station where
  stage : Stage
  position : List Nat
  node : Node

/-- Whether an answer ends the visit, by stopping or failing. -/
def EndsVisit : Except NodeError Recursion → Prop
  | .ok .stop | .error _ => True
  | .ok .proceed | .ok .skip => False

/-- What a visitor answered at a station. -/
structure Reply extends Station where
  answer : Except NodeError Recursion

namespace Station

/-- The station as it is seen from above the child at a place. -/
def below (place : Nat) (station : Station) : Station :=
  { station with position := place :: station.position }

def isBefore (station : Station) : Bool :=
  station.stage = .before

def occurrence (station : Station) : List Nat × Node :=
  (station.position, station.node)

@[simp] theorem isBefore_below (place : Nat) (station : Station) :
    (station.below place).isBefore = station.isBefore := rfl

@[simp] theorem position_below (place : Nat) (station : Station) :
    (station.below place).position = place :: station.position := rfl

end Station

namespace Node

mutual

/-- The stations of a visit that nothing cuts short. -/
def stations (node : Node) : List Station :=
  match node with
  | ⟨_, _, _, _, children⟩ =>
      ⟨.before, [], node⟩ :: (stationsAll 0 children ++ [⟨.after, [], node⟩])

def stationsAll (place : Nat) : List Node → List Station
  | [] => []
  | node :: rest =>
      (stations node).map (Station.below place) ++ stationsAll (place + 1) rest

end

theorem stations_eq (node : Node) :
    node.stations =
      ⟨.before, [], node⟩ :: (stationsAll 0 node.children ++ [⟨.after, [], node⟩]) := by
  cases node
  rfl

theorem exists_position_of_mem_stationsAll {place : Nat} {nodes : List Node}
    {station : Station} (hstation : station ∈ stationsAll place nodes) :
    ∃ later rest, station.position = later :: rest ∧ place ≤ later := by
  induction nodes generalizing place with
  | nil => cases hstation
  | cons node nodes ih =>
      rcases List.mem_append.mp hstation with hfirst | hrest
      · obtain ⟨inner, -, rfl⟩ := List.mem_map.mp hfirst
        exact ⟨place, inner.position, rfl, Nat.le_refl place⟩
      · obtain ⟨later, rest, hposition, hlater⟩ := ih hrest
        exact ⟨later, rest, hposition, Nat.le_of_succ_le hlater⟩

theorem occurrences_of_stationsAll (place : Nat) {nodes : List Node}
    (hnodes : ∀ node ∈ nodes,
      (node.stations.filter Station.isBefore).map Station.occurrence = node.occurrences) :
    ((stationsAll place nodes).filter Station.isBefore).map Station.occurrence =
      occurrencesAll place nodes := by
  induction nodes generalizing place with
  | nil => rfl
  | cons node rest ih =>
      obtain ⟨hnode, hrest⟩ := List.forall_mem_cons.mp hnodes
      rw [stationsAll, List.filter_append, List.map_append, List.filter_map, List.map_map,
        occurrencesAll, ← hnode, List.map_map, ih (place + 1) hrest]
      rfl

/-- A visit comes to the occurrences in preorder. -/
theorem occurrences_of_stations (node : Node) :
    (node.stations.filter Station.isBefore).map Station.occurrence = node.occurrences := by
  induction node using Node.inductionOn with
  | step node ih =>
      rw [stations_eq, List.filter_cons_of_pos rfl, List.filter_append, List.map_cons,
        List.map_append, occurrences_of_stationsAll 0 ih, occurrences_eq]
      simp [Station.isBefore, Station.occurrence]

end Node

/-! ## What replies close -/

/-- Whether the second position is that of a later sibling of the first or lies below one. -/
def laterSibling : List Nat → List Nat → Bool
  | place :: rest, other :: others =>
      (rest.isEmpty && place < other) || (place == other && laterSibling rest others)
  | _, _ => false

namespace Reply

def skips (reply : Reply) : Bool :=
  match reply.answer with
  | .ok .skip => true
  | _ => false

def Ends (reply : Reply) : Prop :=
  EndsVisit reply.answer

/-- Whether the reply leaves out the nodes below a node, among them the one at a position. -/
def skipsAbove (reply : Reply) (position : List Nat) : Bool :=
  reply.isBefore && reply.skips &&
    (reply.position <+: position ∧ reply.position ≠ position)

/-- Whether the reply, given after the nodes below a node, leaves out the later siblings
of the node, among which or below which is the one at a position. -/
def skipsBeside (reply : Reply) (position : List Nat) : Bool :=
  !reply.isBefore && reply.skips && laterSibling reply.position position

/-- Whether the reply keeps the visit from coming to the node at a position. -/
def hides (reply : Reply) (position : List Nat) : Bool :=
  reply.skipsAbove position || reply.skipsBeside position

/-- Whether the reply closes a station.  A node that is skipped before the nodes below it is
not come to again after them. -/
def closes (reply : Reply) (station : Station) : Bool :=
  reply.hides station.position ||
    (reply.isBefore && reply.skips && !station.isBefore && reply.position = station.position)

/-- A reply at one of the two stations at the top of a plan. -/
def atTop (stage : Stage) (node : Node) (answer : Except NodeError Recursion) : Reply :=
  ⟨⟨stage, [], node⟩, answer⟩

def below (place : Nat) (reply : Reply) : Reply :=
  { reply with toStation := reply.toStation.below place }

/-- The reply was given at the top of the plan and leaves out all that comes after it. -/
def PassesSiblings (reply : Reply) : Prop :=
  reply.position = [] ∧ reply.isBefore = false ∧ reply.skips = true

variable {reply : Reply} {station : Station} {place : Nat}

@[simp] theorem skips_below : (reply.below place).skips = reply.skips := rfl

@[simp] theorem isBefore_below : (reply.below place).isBefore = reply.isBefore := rfl

@[simp] theorem position_below :
    (reply.below place).position = place :: reply.position := rfl

@[simp] theorem ends_below : (reply.below place).Ends ↔ reply.Ends := Iff.rfl

theorem closes_of_not_skips (hskips : reply.skips = false) : reply.closes station = false := by
  simp [closes, hides, skipsAbove, skipsBeside, hskips]

/-- The stations at the top of a plan are closed only by a reply at the top. -/
theorem closes_top_iff (htop : station.position = []) :
    reply.closes station = true ↔ reply.position = [] ∧ reply.isBefore = true ∧
      reply.skips = true ∧ station.isBefore = false := by
  cases hposition : reply.position <;>
    simp [closes, hides, skipsAbove, skipsBeside, htop, hposition, laterSibling, and_assoc]

theorem closes_of_top (htop : reply.position = []) (hbefore : reply.isBefore = true)
    (hskips : reply.skips = true)
    (hahead : station.position ≠ [] ∨ station.isBefore = false) :
    reply.closes station = true := by
  cases hposition : station.position with
  | nil =>
      have hafter := hahead.resolve_left (not_not.mpr hposition)
      exact (closes_top_iff hposition).mpr ⟨htop, hbefore, hskips, hafter⟩
  | cons place rest => simp [closes, hides, skipsAbove, htop, hbefore, hskips, hposition]

theorem closes_of_last (htop : reply.position = []) (hafter : reply.isBefore = false) :
    reply.closes station = false := by
  simp [closes, hides, skipsAbove, skipsBeside, htop, hafter, laterSibling]

theorem closes_below :
    (reply.below place).closes (station.below place) = reply.closes station := by
  rw [Bool.eq_iff_iff]
  simp [closes, hides, skipsAbove, skipsBeside, laterSibling]

/-- Of the replies inside a child only one at the child itself closes anything outside. -/
theorem closes_of_below {later : Nat} {rest : List Nat}
    (hposition : station.position = later :: rest) (hlater : place < later) :
    (reply.below place).closes station = true ↔ reply.PassesSiblings := by
  have hne : place ≠ later := Nat.ne_of_lt hlater
  simp [closes, hides, skipsAbove, skipsBeside, laterSibling, PassesSiblings, hposition,
    hne, hlater, and_comm]

theorem closes_of_later {later : Nat} {rest : List Nat}
    (hposition : reply.position = later :: rest) (hlater : place < later) :
    reply.closes (station.below place) = false := by
  have hne : later ≠ place := (Nat.ne_of_lt hlater).symm
  have hnot : ¬ later < place := Nat.lt_asymm hlater
  simp [closes, hides, skipsAbove, skipsBeside, laterSibling, hposition, hne, hnot]

end Reply

/-! ## Replies at stations -/

section Covering

/-- The stations that no reply closes. -/
def openStations (replies : List Reply) (stations : List Station) : List Station :=
  stations.filter fun station => !replies.any (·.closes station)

/-- The replies were given at all stations but those that they close, and none ends the
visit. -/
structure Complete (stations : List Station) (replies : List Reply) : Prop where
  goesOn : ∀ reply ∈ replies, ¬ reply.Ends
  stations_eq : replies.map Reply.toStation = openStations replies stations

/-- The same up to the last reply, with which the visit ends. -/
structure Broken (stations : List Station) (replies : List Reply)
    (result : Except NodeError Recursion) : Prop where
  last : ∃ earlier last, replies = earlier ++ [last] ∧ last.Ends ∧ last.answer = result ∧
    ∀ reply ∈ earlier, ¬ reply.Ends
  stations_prefix : replies.map Reply.toStation <+: openStations replies stations

variable {stations later : List Station} {replies others : List Reply}
  {result : Except NodeError Recursion}

theorem openStations_append (replies : List Reply) (stations later : List Station) :
    openStations replies (stations ++ later) =
      openStations replies stations ++ openStations replies later :=
  List.filter_append ..

theorem openStations_congr {replies others : List Reply} {stations : List Station}
    (hcloses : ∀ station ∈ stations,
      replies.any (·.closes station) = others.any (·.closes station)) :
    openStations replies stations = openStations others stations :=
  List.filter_congr fun station hstation => by rw [hcloses station hstation]

/-- Replies that close none of some stations have no part in which of them are open. -/
theorem openStations_append_replies
    (hothers : ∀ reply ∈ others, ∀ station ∈ stations, reply.closes station = false) :
    openStations (replies ++ others) stations = openStations replies stations := by
  apply openStations_congr
  intro station hstation
  have hnone : others.any (·.closes station) = false :=
    List.any_eq_false.mpr fun reply hreply => by
      simp [hothers reply hreply station hstation]
  rw [List.any_append, hnone, Bool.or_false]

theorem openStations_replies_append
    (hreplies : ∀ reply ∈ replies, ∀ station ∈ stations, reply.closes station = false) :
    openStations (replies ++ others) stations = openStations others stations := by
  apply openStations_congr
  intro station hstation
  have hnone : replies.any (·.closes station) = false :=
    List.any_eq_false.mpr fun reply hreply => by
      simp [hreplies reply hreply station hstation]
  rw [List.any_append, hnone, Bool.false_or]

theorem Complete.nil : Complete [] [] :=
  ⟨by simp, rfl⟩

theorem Complete.append (hfirst : Complete stations replies) (hrest : Complete later others)
    (hreplies : ∀ reply ∈ replies, ∀ station ∈ later, reply.closes station = false)
    (hothers : ∀ reply ∈ others, ∀ station ∈ stations, reply.closes station = false) :
    Complete (stations ++ later) (replies ++ others) := by
  constructor
  · exact List.forall_mem_append.mpr ⟨hfirst.goesOn, hrest.goesOn⟩
  · rw [List.map_append, hfirst.stations_eq, hrest.stations_eq, openStations_append,
      openStations_append_replies hothers, openStations_replies_append hreplies]

theorem Complete.append_closed (hfirst : Complete stations replies)
    (hclosed : ∀ station ∈ later, ∃ reply ∈ replies, reply.closes station = true) :
    Complete (stations ++ later) replies := by
  constructor
  · exact hfirst.goesOn
  · have hnone : openStations replies later = [] := by
      refine List.filter_eq_nil_iff.mpr fun station hstation => ?_
      simpa using hclosed station hstation
    rw [openStations_append, hnone, List.append_nil, hfirst.stations_eq]

theorem Broken.append_left (hfirst : Broken stations replies result)
    (later : List Station) : Broken (stations ++ later) replies result :=
  ⟨hfirst.last, by
    rw [openStations_append]
    exact hfirst.stations_prefix.trans (List.prefix_append _ _)⟩

theorem Complete.append_broken (hfirst : Complete stations replies)
    (hrest : Broken later others result)
    (hreplies : ∀ reply ∈ replies, ∀ station ∈ later, reply.closes station = false)
    (hothers : ∀ reply ∈ others, ∀ station ∈ stations, reply.closes station = false) :
    Broken (stations ++ later) (replies ++ others) result := by
  obtain ⟨earlier, last, rfl, hends, hanswer, hearlier⟩ := hrest.last
  constructor
  · exact ⟨replies ++ earlier, last, (List.append_assoc ..).symm, hends, hanswer,
      List.forall_mem_append.mpr ⟨hfirst.goesOn, hearlier⟩⟩
  · rw [List.map_append, hfirst.stations_eq, openStations_append,
      openStations_append_replies hothers, openStations_replies_append hreplies]
    exact (List.prefix_append_right_inj _).mpr hrest.stations_prefix

theorem openStations_below (place : Nat) (replies : List Reply) (stations : List Station) :
    openStations (replies.map (Reply.below place)) (stations.map (Station.below place)) =
      (openStations replies stations).map (Station.below place) := by
  unfold openStations
  rw [List.filter_map]
  congr 1
  refine List.filter_congr fun station _ => ?_
  simp [List.any_map, Function.comp_def, Reply.closes_below]

theorem Complete.below (hcomplete : Complete stations replies) (place : Nat) :
    Complete (stations.map (Station.below place)) (replies.map (Reply.below place)) := by
  constructor
  · simpa using hcomplete.goesOn
  · rw [openStations_below, ← hcomplete.stations_eq, List.map_map, List.map_map]
    rfl

theorem Broken.below (hbroken : Broken stations replies result) (place : Nat) :
    Broken (stations.map (Station.below place)) (replies.map (Reply.below place)) result := by
  obtain ⟨earlier, last, rfl, hends, hanswer, hearlier⟩ := hbroken.last
  constructor
  · exact ⟨earlier.map (Reply.below place), last.below place, by simp, hends, hanswer,
      by simpa using hearlier⟩
  · have hmap := hbroken.stations_prefix.map (Station.below place)
    rw [openStations_below]
    rwa [List.map_map] at hmap ⊢

/-- The replies over some stations, by what the visit of them answers. -/
def Covers (stations : List Station) (replies : List Reply) :
    Except NodeError Recursion → Prop
  | .ok .proceed | .ok .skip => Complete stations replies
  | result => Broken stations replies result

theorem Covers.complete (hcovers : Covers stations replies result)
    (hends : ∀ reply ∈ replies, ¬ reply.Ends) : Complete stations replies := by
  match result, hcovers with
  | .ok .proceed, hcomplete | .ok .skip, hcomplete => exact hcomplete
  | .ok .stop, hbroken | .error _, hbroken =>
      obtain ⟨earlier, last, rfl, hlast, -⟩ := Broken.last hbroken
      exact absurd hlast (hends last (by simp))

theorem Covers.stations_prefix (hcovers : Covers stations replies result) :
    replies.map Reply.toStation <+: openStations replies stations := by
  match result, hcovers with
  | .ok .proceed, hcomplete | .ok .skip, hcomplete =>
      exact ⟨[], (List.append_nil _).trans (Complete.stations_eq hcomplete)⟩
  | .ok .stop, hbroken | .error _, hbroken => exact Broken.stations_prefix hbroken

theorem Covers.mem (hcovers : Covers stations replies result) {reply : Reply}
    (hreply : reply ∈ replies) : reply.toStation ∈ stations := by
  have hopen := hcovers.stations_prefix.subset (List.mem_map_of_mem hreply)
  exact List.mem_of_mem_filter hopen

/-- No reply comes after one that ends the visit. -/
theorem Covers.pairwise (hcovers : Covers stations replies result) :
    replies.Pairwise (fun reply _ => ¬ reply.Ends) := by
  match result, hcovers with
  | .ok .proceed, hcomplete | .ok .skip, hcomplete =>
      exact List.pairwise_of_forall_mem_list fun reply hreply _ _ =>
        Complete.goesOn hcomplete reply hreply
  | .ok .stop, hbroken | .error _, hbroken =>
      obtain ⟨earlier, last, rfl, -, -, hearlier⟩ := Broken.last hbroken
      refine List.pairwise_append.mpr ⟨?_, List.pairwise_singleton _ _, ?_⟩
      · exact List.pairwise_of_forall_mem_list fun reply hreply _ _ => hearlier reply hreply
      · exact fun reply hreply _ _ => hearlier reply hreply

theorem covers_singleton {reply : Reply} (hcloses : reply.closes reply.toStation = false) :
    Covers [reply.toStation] [reply] reply.answer := by
  obtain ⟨station, result⟩ := reply
  have hopen : openStations [⟨station, result⟩] [station] = [station] := by
    simp [openStations, hcloses]
  match result with
  | .ok .proceed | .ok .skip => exact ⟨by simp [Reply.Ends, EndsVisit], hopen.symm⟩
  | .ok .stop | .error _ =>
      refine ⟨⟨[], _, rfl, trivial, rfl, by simp⟩, ?_⟩
      rw [hopen]
      exact List.prefix_refl _

theorem Complete.append_covers (hfirst : Complete stations replies)
    (hrest : Covers later others result)
    (hreplies : ∀ reply ∈ replies, ∀ station ∈ later, reply.closes station = false)
    (hothers : ∀ reply ∈ others, ∀ station ∈ stations, reply.closes station = false) :
    Covers (stations ++ later) (replies ++ others) result := by
  match result, hrest with
  | .ok .proceed, hcomplete | .ok .skip, hcomplete =>
      exact hfirst.append hcomplete hreplies hothers
  | .ok .stop, hbroken | .error _, hbroken =>
      exact hfirst.append_broken hbroken hreplies hothers

theorem Covers.append_left (hfirst : Covers stations replies result)
    (hends : EndsVisit result) (later : List Station) :
    Covers (stations ++ later) replies result := by
  match result, hfirst, hends with
  | .ok .stop, hbroken, _ | .error _, hbroken, _ => exact Broken.append_left hbroken later

/-- A visit answers what ends it. -/
theorem Covers.eq_iff_of_ends (hcovers : Covers stations replies result)
    {ending : Except NodeError Recursion} (hends : EndsVisit ending) :
    result = ending ↔ ∃ reply ∈ replies, reply.answer = ending := by
  match result, hcovers with
  | .ok .proceed, hcomplete | .ok .skip, hcomplete =>
      refine iff_of_false (by rintro rfl; exact hends) ?_
      rintro ⟨reply, hreply, rfl⟩
      exact Complete.goesOn hcomplete reply hreply hends
  | .ok .stop, hbroken | .error _, hbroken =>
      obtain ⟨earlier, last, rfl, -, hanswer, hearlier⟩ := Broken.last hbroken
      constructor
      · rintro rfl
        exact ⟨last, List.mem_append_right _ (List.mem_singleton_self _), hanswer⟩
      · rintro ⟨reply, hreply, rfl⟩
        rcases List.mem_append.mp hreply with hreply | hreply
        · exact absurd hends (hearlier reply hreply)
        · rw [List.mem_singleton.mp hreply, hanswer]

end Covering

end QueryPlan
