import QueryPlan.Proofs.Session.Equality
import QueryPlan.Proofs.Session.Reached

/-!
# Rewriting normal forms

Rewriting decides by handles in several places: whether a node is rebuilt and
checked again, whether a replacement is made, and when the passes end.  On
normal forms the same rewriting is a plain function, which always rebuilds and
always runs every pass.

A rule computes a step when its answers have the normal form that the step makes
of the normal form of the node.  A rewriter whose rules compute steps then
computes the rewriting of normal forms by these steps, and with it a result that
depends on no handle.
-/

namespace QueryPlan

variable [ForeignTypes]

/-- What a rule makes of a normal form. -/
abbrev Step := Node → Except NodeError Node

namespace NormalRewriting

def applySteps : List Step → Step
  | [], node => .ok node
  | step :: rest, node => step node >>= applySteps rest

/-- The normal form of a label over children that are normal forms. -/
def rebuild (label : Label) (annotations : Annotations) (children : List Node) :
    Except NodeError Node := do
  label.checkParts children
  return label.node 0 annotations children

mutual

def rewriteNode (steps : List Step) (node : Node) : Except NodeError Node :=
  match node with
  | ⟨_, label, _, annotations, children⟩ => do
      let children ← rewriteAll steps label 0 children
      let rebuilt ← rebuild label annotations children
      applySteps steps rebuilt

def rewriteAll (steps : List Step) (label : Label) (place : Nat) :
    List Node → Except NodeError (List Node)
  | [] => .ok []
  | child :: rest => do
      let changed ← rewriteNode steps child
      let _ ← changed.expect label.kind (label.slotCategory place)
      return changed :: (← rewriteAll steps label (place + 1) rest)

end

/-- Gives each child in turn to `change` and checks the category of the result. -/
def visitAll (change : Step) (label : Label) :
    Nat → List Node → Except NodeError (List Node)
  | _, [] => .ok []
  | place, child :: rest => do
      let changed ← change child
      let _ ← changed.expect label.kind (label.slotCategory place)
      return changed :: (← visitAll change label (place + 1) rest)

def visitChildren (change : Step) : Step := fun node => do
  rebuild node.label node.annotations (← visitAll change node.label 0 node.children)

/-- The step at the node and then below what it made, at most `depth` levels. -/
def transformDown (step : Step) : Nat → Step
  | 0, _ => .error .depthExhausted
  | depth + 1, node => step node >>= visitChildren (transformDown step depth)

def passes (steps : List Step) : Nat → Step
  | 0, node => .ok node
  | remaining + 1, node => rewriteNode steps node >>= passes steps remaining

theorem rewriteNode_eq (steps : List Step) (node : Node) :
    rewriteNode steps node =
      (do
        let children ← rewriteAll steps node.label 0 node.children
        let rebuilt ← rebuild node.label node.annotations children
        applySteps steps rebuilt) := by
  cases node
  rw [rewriteNode]

theorem rewriteAll_eq_visitAll (steps : List Step) (label : Label) (place : Nat)
    (children : List Node) :
    rewriteAll steps label place children =
      visitAll (rewriteNode steps) label place children := by
  induction children generalizing place with
  | nil => rfl
  | cons child rest ih => simp only [rewriteAll, visitAll, ih]

theorem rewriteNode_eq_visitChildren (steps : List Step) (node : Node) :
    rewriteNode steps node =
      visitChildren (rewriteNode steps) node >>= applySteps steps := by
  rw [rewriteNode_eq, rewriteAll_eq_visitAll, visitChildren]
  cases visitAll (rewriteNode steps) node.label 0 node.children <;> rfl

theorem passes_of_fixed {steps : List Step} {node : Node}
    (hfixed : rewriteNode steps node = .ok node) (remaining : Nat) :
    passes steps remaining node = .ok node := by
  induction remaining with
  | zero => rfl
  | succ remaining ih =>
      rw [passes, hfixed]
      exact ih

end NormalRewriting

/-! ## The checks on normal forms -/

namespace Node

theorem expect_normal (node : Node) (parent : Kind) (category : Category) :
    node.normal.expect parent category =
      (node.expect parent category).map normal := by
  unfold expect
  split <;> simp_all [Except.map]

end Node

namespace Label

theorem checkParts_normal (label : Label) (children : List Node) :
    label.normal.checkParts (children.map Node.normal) =
      label.checkParts children := by
  rw [checkParts_map Node.normal_type, checkParts, checkParts]
  have hcount : label.normal.checkCount children = label.checkCount children := by
    simp [checkCount]
  have hpredicate : label.normal.checkPredicate children = label.checkPredicate children := by
    cases label <;> rfl
  rw [hcount, hpredicate]

end Label

namespace Session

/-! ## Computing normal forms -/

/-- The answer is known, and its normal form is the expected one. -/
def AnswersNormal (expected : Except NodeError Node)
    (result : Except NodeError Node) (later : Session) : Prop :=
  AnswersKnown ([·]) result later ∧ result.map Node.normal = expected

/-- The normal forms of visited children are the expected ones. -/
def AnswersNormals (expected : Except NodeError (List Node)) (label : Label)
    (place : Nat) (result : Except NodeError (List Node)) (later : Session) : Prop :=
  AnswersFitting label place result later ∧
    result.map (·.map Node.normal) = expected

end Session

/-- The node with which rewriting goes on after an outcome for `node`. -/
def Outcome.over (node : Node) : Outcome → Node
  | .changed new => new
  | .unchanged _ => node

open Session in
/-- Among the sessions reached from `base`, a rule does to known nodes what a
step does to their normal forms. -/
def Rule.Computes (base : Session) (rule : Rule) (step : Step) : Prop :=
  ∀ (session : Session) (node : Node), session.Knows node →
    Leads base.ReachedFrom session (rule.apply node) fun result later =>
      AnswersNormal (step node.normal) (result.map (·.over node)) later

end QueryPlan
