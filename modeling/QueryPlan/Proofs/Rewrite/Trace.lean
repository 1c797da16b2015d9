import QueryPlan.Proofs.Node.Positions
import QueryPlan.Proofs.Rewrite.NormalRewriting

/-!
# Traces of rewriting

A trace keeps what a pass does at every position of a plan: the node given there,
the node that was rebuilt over the new children, and what each rule answered.
One node may stand at many positions, and each of them has a part of the trace of
its own.

Tracing a pass runs the same actions as the pass itself, whose result can be read
from the trace.
-/

namespace QueryPlan

variable [ForeignTypes]

/-- What a pass does at one position and below it. -/
structure Trace where
  given : Node
  parts : List Trace
  rebuilt : Node
  answers : List Outcome

namespace Node

/-- The node to which answers lead, given one after the other. -/
def follow (node : Node) : List Outcome → Node
  | [] => node
  | answer :: rest => (answer.over node).follow rest

theorem follow_of_unchanged {node : Node} {answers : List Outcome}
    (hanswers : ∀ answer ∈ answers, answer.isChanged = false) :
    node.follow answers = node := by
  induction answers with
  | nil => rfl
  | cons answer rest ih =>
      obtain ⟨hanswer, hrest⟩ := List.forall_mem_cons.mp hanswers
      cases answer with
      | changed new => cases hanswer
      | unchanged kept => exact ih hrest

end Node

namespace Trace

/-- The node that stands at the position after the pass. -/
def result (trace : Trace) : Node :=
  trace.rebuilt.follow trace.answers

/-- The part at a position. -/
def at? : List Nat → Trace → Option Trace
  | [], trace => some trace
  | place :: rest, trace => trace.parts[place]?.bind (at? rest)

mutual

/-- The nodes that the rewriter made itself, in the order of their making. -/
def allocated : Trace → List Node
  | ⟨given, parts, rebuilt, _⟩ =>
      allocatedAll parts ++ if rebuilt.is given then [] else [rebuilt]

def allocatedAll : List Trace → List Node
  | [] => []
  | trace :: rest => allocated trace ++ allocatedAll rest

end

theorem inductionOn {motive : Trace → Prop} (trace : Trace)
    (step : ∀ trace : Trace, (∀ part ∈ trace.parts, motive part) → motive trace) :
    motive trace := by
  refine @Trace.rec _ motive (fun traces => ∀ part ∈ traces, motive part) ?_ ?_ ?_ trace
  · intro given parts rebuilt answers hparts
    exact step ⟨given, parts, rebuilt, answers⟩ hparts
  · intro part hpart
    simp at hpart
  · intro first rest hfirst hrest part hpart
    rcases List.mem_cons.mp hpart with rfl | hpart
    · exact hfirst
    · exact hrest part hpart

@[simp] theorem at?_nil (trace : Trace) : trace.at? [] = some trace := rfl

theorem at?_cons (place : Nat) (rest : List Nat) (trace : Trace) :
    trace.at? (place :: rest) = trace.parts[place]?.bind (at? rest) := rfl

theorem at?_cons_eq_some_iff {place : Nat} {rest : List Nat} {trace inner : Trace} :
    trace.at? (place :: rest) = some inner ↔
      ∃ part, trace.parts[place]? = some part ∧ part.at? rest = some inner :=
  Option.bind_eq_some_iff

theorem allocatedAll_eq_flatMap (traces : List Trace) :
    allocatedAll traces = traces.flatMap allocated := by
  induction traces with
  | nil => rfl
  | cons trace rest ih => rw [allocatedAll, ih, List.flatMap_cons]

theorem allocated_eq (trace : Trace) :
    trace.allocated = trace.parts.flatMap allocated ++
      if trace.rebuilt.is trace.given then [] else [trace.rebuilt] := by
  cases trace with
  | mk given parts rebuilt answers => rw [allocated, allocatedAll_eq_flatMap]

/-- What holds of the parts at all positions. -/
def Everywhere (p : Trace → Prop) (trace : Trace) : Prop :=
  ∀ path part, trace.at? path = some part → p part

theorem everywhere_iff {p : Trace → Prop} {trace : Trace} :
    trace.Everywhere p ↔ p trace ∧ ∀ part ∈ trace.parts, part.Everywhere p := by
  constructor
  · intro hall
    refine ⟨hall [] trace rfl, ?_⟩
    intro part hpart path inner hinner
    obtain ⟨place, hplace⟩ := List.mem_iff_getElem?.mp hpart
    exact hall (place :: path) inner (at?_cons_eq_some_iff.mpr ⟨part, hplace, hinner⟩)
  · rintro ⟨htrace, hparts⟩ path part hpart
    cases path with
    | nil =>
        obtain rfl := Option.some.inj hpart
        exact htrace
    | cons place rest =>
        obtain ⟨child, hchild, hpart⟩ := at?_cons_eq_some_iff.mp hpart
        exact hparts child (List.mem_of_getElem? hchild) rest part hpart

theorem Everywhere.self {p : Trace → Prop} {trace : Trace}
    (hall : trace.Everywhere p) : p trace :=
  (everywhere_iff.mp hall).1

theorem Everywhere.part {p : Trace → Prop} {trace part : Trace}
    (hall : trace.Everywhere p) (hpart : part ∈ trace.parts) : part.Everywhere p :=
  (everywhere_iff.mp hall).2 part hpart

theorem Everywhere.mono {p q : Trace → Prop} {trace : Trace}
    (hall : trace.Everywhere p) (hpq : ∀ part, p part → q part) : trace.Everywhere q :=
  fun path part hpart => hpq part (hall path part hpart)

theorem Everywhere.at {p : Trace → Prop} {trace part : Trace} {path : List Nat}
    (hall : trace.Everywhere p) (hpart : trace.at? path = some part) :
    part.Everywhere p := by
  induction path generalizing trace with
  | nil =>
      obtain rfl := Option.some.inj hpart
      exact hall
  | cons place rest ih =>
      obtain ⟨child, hchild, hpart⟩ := at?_cons_eq_some_iff.mp hpart
      exact ih (hall.part (List.mem_of_getElem? hchild)) hpart

/-- The same positions hold parts of the trace and of the plan it was given. -/
theorem map_given_at? {trace : Trace}
    (hgiven : trace.Everywhere fun part => part.parts.map given = part.given.children)
    (path : List Nat) : (trace.at? path).map given = trace.given.at? path := by
  induction path generalizing trace with
  | nil => rfl
  | cons place rest ih =>
      rw [at?_cons, Node.at?_cons, ← hgiven.self, List.getElem?_map]
      cases hpart : trace.parts[place]? with
      | none => rfl
      | some part => exact ih (hgiven.part (List.mem_of_getElem? hpart))

end Trace

/-! ## Tracing a pass -/

namespace Rewriter

/-- Applies the rules and keeps their answers. -/
def answersOf : List Rule → Node → Work Journal (List Outcome)
  | [], _ => pure []
  | rule :: rest, node => do
      match ← rule.apply node with
      | .changed new =>
          report (.ruleApplied rule.name node.kind new.kind)
          return .changed new :: (← answersOf rest new)
      | .unchanged kept => return .unchanged kept :: (← answersOf rest node)

mutual

def traceNode (rules : List Rule) (node : Node) : Work Journal Trace :=
  match node with
  | ⟨handle, label, type, annotations, children⟩ => do
      let parts ← traceAll rules label 0 children
      let node : Node := ⟨handle, label, type, annotations, children⟩
      let rebuilt ← node.update (parts.map Trace.result)
      return ⟨node, parts, rebuilt, ← answersOf rules rebuilt⟩

def traceAll (rules : List Rule) (label : Label) (place : Nat) :
    List Node → Work Journal (List Trace)
  | [] => pure []
  | child :: rest => do
      let trace ← traceNode rules child
      let _ ← Attempt.ofExcept
        (trace.result.expect label.kind (label.slotCategory place))
      return trace :: (← traceAll rules label (place + 1) rest)

end

theorem traceNode_eq (rules : List Rule) (node : Node) :
    traceNode rules node = (do
      let parts ← traceAll rules node.label 0 node.children
      let rebuilt ← node.update (parts.map Trace.result)
      return ⟨node, parts, rebuilt, ← answersOf rules rebuilt⟩) := by
  cases node
  rw [traceNode]

theorem applyRules_eq_follow (rules : List Rule) (node : Node) :
    applyRules rules node = node.follow <$> answersOf rules node := by
  induction rules generalizing node with
  | nil => rfl
  | cons rule rest ih =>
      simp only [applyRules, answersOf, map_bind]
      refine bind_congr fun outcome => ?_
      cases outcome with
      | changed new => simp [ih, Node.follow, Outcome.over]
      | unchanged kept => simp [ih, Node.follow, Outcome.over]

theorem rewriteAll_eq_results {rules : List Rule} (label : Label) (place : Nat)
    {children : List Node}
    (hchildren : ∀ child ∈ children,
      rewriteNode rules child = Trace.result <$> traceNode rules child) :
    rewriteAll rules label place children =
      List.map Trace.result <$> traceAll rules label place children := by
  induction children generalizing place with
  | nil => rfl
  | cons child rest ih =>
      have hrest := ih (place + 1)
        fun other hother => hchildren other (List.mem_cons_of_mem child hother)
      simp [rewriteAll, traceAll, hchildren child List.mem_cons_self, hrest]

/-- The pass is its trace, of which only the result is kept. -/
theorem rewriteNode_eq_result (rules : List Rule) (node : Node) :
    rewriteNode rules node = Trace.result <$> traceNode rules node := by
  induction node using Node.inductionOn with
  | step node ih =>
      have hchildren := rewriteAll_eq_results node.label 0 ih
      rw [rewriteNode_eq, Node.visitChildren, ← rewriteAll_eq_visitFrom, hchildren,
        traceNode_eq]
      simp only [bind_map_left, map_bind, bind_assoc, map_pure]
      refine bind_congr fun parts => ?_
      refine bind_congr fun rebuilt => ?_
      exact applyRules_eq_follow rules rebuilt

end Rewriter

/-! ## What a trace records -/

/-- At this position the rules came from the rebuilt node to the result. -/
def Trace.Ran (rules : List Rule) (trace : Trace) : Prop :=
  ∃ store store', Rewriter.applyRules rules trace.rebuilt store = .ok trace.result store'

namespace Rewriter

theorem ran_of_traceAll {rules : List Rule} (label : Label) (place : Nat)
    {children : List Node}
    (hchildren : ∀ child ∈ children, ∀ store trace store',
      traceNode rules child store = .ok trace store' → trace.Everywhere (Trace.Ran rules))
    {store store' : Store Journal} {traces : List Trace}
    (hrun : traceAll rules label place children store = .ok traces store') :
    ∀ trace ∈ traces, trace.Everywhere (Trace.Ran rules) := by
  induction children generalizing place store traces with
  | nil =>
      cases hrun
      simp
  | cons child rest ih =>
      obtain ⟨hchild, hrest⟩ := List.forall_mem_cons.mp hchildren
      obtain ⟨trace, next, htrace, hrun⟩ := Attempt.bind_eq_ok_iff.mp hrun
      obtain ⟨_, checked, -, hrun⟩ := Attempt.bind_eq_ok_iff.mp hrun
      obtain ⟨others, last, hothers, hrun⟩ := Attempt.bind_eq_ok_iff.mp hrun
      cases hrun
      exact List.forall_mem_cons.mpr
        ⟨hchild store trace next htrace, ih (place + 1) hrest hothers⟩

/-- Every position of a trace records a run of the rules. -/
theorem ran_of_traceNode {rules : List Rule} {node : Node} {store store' : Store Journal}
    {trace : Trace} (hrun : traceNode rules node store = .ok trace store') :
    trace.Everywhere (Trace.Ran rules) := by
  induction node using Node.inductionOn generalizing store trace store' with
  | step node ih =>
      rw [traceNode_eq] at hrun
      obtain ⟨parts, middle, hparts, hrun⟩ := Attempt.bind_eq_ok_iff.mp hrun
      obtain ⟨rebuilt, later, -, hrun⟩ := Attempt.bind_eq_ok_iff.mp hrun
      obtain ⟨answers, last, hanswers, hrun⟩ := Attempt.bind_eq_ok_iff.mp hrun
      cases hrun
      have happlied : applyRules rules rebuilt later =
          .ok (rebuilt.follow answers) store' := by
        rw [applyRules_eq_follow, map_eq_pure_bind]
        exact Attempt.bind_eq_ok_iff.mpr ⟨answers, store', hanswers, rfl⟩
      refine Trace.everywhere_iff.mpr ⟨⟨later, store', happlied⟩, ?_⟩
      exact ran_of_traceAll node.label 0 (fun child hchild store trace store' htrace =>
        ih child hchild htrace) hparts

theorem exists_trace_of_rewrite {rewriter : Rewriter} {node : Node}
    {store store' : Store Journal} {answer : Outcome}
    (hrun : rewriter.rewrite node store = .ok answer store') :
    ∃ trace, traceNode rewriter.rules node store = .ok trace store' ∧
      answer = outcome node trace.result := by
  rw [rewrite, rewriteNode_eq_result] at hrun
  obtain ⟨result, last, hresult, hrun⟩ := Attempt.bind_eq_ok_iff.mp hrun
  cases hrun
  rw [map_eq_pure_bind] at hresult
  obtain ⟨trace, last, htrace, hresult⟩ := Attempt.bind_eq_ok_iff.mp hresult
  cases hresult
  exact ⟨trace, htrace, rfl⟩

end Rewriter

end QueryPlan
