import QueryPlan.Handle
import QueryPlan.Node.Error

/-!
# Actions on plans

Building nodes needs handles that were never given out, and may fail.  An
attempt keeps the state it has reached when it fails, so that what was recorded
before a failure is not lost.
-/

namespace QueryPlan

/-- An action on a state that may fail. -/
abbrev Attempt (σ : Type) := EStateM NodeError σ

/-- An action whose state is the first handle not yet given out. -/
abbrev Build := Attempt Handle

/-- The first handle not yet given out, beside a state of the caller. -/
structure Store (σ : Type) where
  next : Handle
  own : σ

/-- An action that may build nodes and also has a state of its own. -/
abbrev Work (σ : Type) := Attempt (Store σ)

/-- Gives out a handle. -/
def fresh : Build Handle := fun next => .ok next (next + 1)

/-- Goes on with a result, or fails. -/
def Attempt.ofExcept {σ α : Type} : Except NodeError α → Attempt σ α
  | .ok value => pure value
  | .error fault => throw fault

/-- Runs an action that builds nodes, leaving the caller's state alone. -/
def Work.ofBuild {σ α : Type} (build : Build α) : Work σ α := fun store =>
  match build store.next with
  | .ok value next => .ok value { store with next }
  | .error fault next => .error fault { store with next }

instance {σ : Type} : MonadLift Build (Work σ) where
  monadLift := Work.ofBuild

/-- Changes the caller's state. -/
def Work.modifyOwn {σ : Type} (change : σ → σ) : Work σ PUnit :=
  modify fun store => { store with own := change store.own }

end QueryPlan
