import QueryPlan.Journal
import QueryPlan.Rewrite.Rule

/-!
# The rewriter

Rules are applied to every node from the leaves up, each rule to what the rules
before it have made of the node.  A pass changed something when the plan it
answers is another node than the plan it was given; passes are repeated until
one changes nothing or their number is used up.  The journal survives a failure.
-/

namespace QueryPlan

variable [ForeignTypes]

structure Rewriter where
  rules : List Rule
  maxPasses : Nat

namespace Rewriter

def defaultMaxPasses : Nat := 16

def ofRules (rules : List Rule) : Rewriter :=
  ⟨rules, defaultMaxPasses⟩

/-- Limits the passes; at least one is always allowed. -/
def withMaxPasses (rewriter : Rewriter) (passes : Nat) : Rewriter :=
  { rewriter with maxPasses := max passes 1 }

def ruleNames (rewriter : Rewriter) : List String :=
  rewriter.rules.map (·.name)

/-- Adds a record to the journal. -/
def report (record : Record) : Work Journal PUnit :=
  Work.modifyOwn (· ++ [record])

def applyRules : List Rule → Node → Work Journal Node
  | [], node => pure node
  | rule :: rest, node => do
      match ← rule.apply node with
      | .changed new =>
          report (.ruleApplied rule.name node.kind new.kind)
          applyRules rest new
      | .unchanged _ => applyRules rest node

mutual

/-- Rewrites the children and then the node over them. -/
def rewriteNode (rules : List Rule) (node : Node) : Work Journal Node :=
  match node with
  | ⟨_, label, _, _, children⟩ => do
      let children ← rewriteAll rules label 0 children
      let rebuilt ← node.update children
      applyRules rules rebuilt

def rewriteAll (rules : List Rule) (label : Label) (place : Nat) :
    List Node → Work Journal (List Node)
  | [] => pure []
  | child :: rest => do
      let changed ← rewriteNode rules child
      let _ ← Attempt.ofExcept (changed.expect label.kind (label.slotCategory place))
      return changed :: (← rewriteAll rules label (place + 1) rest)

end

/-- Tells by handles whether a result is another plan than the one given. -/
def outcome (given result : Node) : Outcome :=
  if result.is given then .unchanged result else .changed result

/-- One pass. -/
def rewrite (rewriter : Rewriter) (node : Node) : Work Journal Outcome := do
  return outcome node (← rewriteNode rewriter.rules node)

/-- At most `remaining` passes, the next of which is number `pass`.  Also tells
whether the last one changed nothing. -/
def passes (rewriter : Rewriter) (remaining pass : Nat) (node : Node) :
    Work Journal (Node × Bool) :=
  match remaining with
  | 0 => pure (node, false)
  | remaining + 1 => do
      match ← rewriter.rewrite node with
      | .changed next => rewriter.passes remaining (pass + 1) next
      | .unchanged next =>
          report (.fixpointReached pass)
          return (next, true)

/-- Passes until one changes nothing, or as many as are allowed. -/
def rewriteToFixpoint (rewriter : Rewriter) (node : Node) :
    Work Journal Outcome := do
  let (last, reached) ← rewriter.passes rewriter.maxPasses 1 node
  unless reached do
    report (.passesExhausted rewriter.maxPasses)
  return outcome node last

end Rewriter

end QueryPlan
