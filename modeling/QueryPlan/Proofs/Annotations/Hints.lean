import Mathlib.Logic.Relation
import QueryPlan.Handle
import QueryPlan.Proofs.Annotations.Foreign

/-!
# Hints

Two types of a caller that meet all laws: the lock that a plan should take, and
the number of rows that it is expected to give.  The number comes with a remark,
which is not looked at when values are compared, digested and written.
-/

namespace QueryPlan.Hints

inductive Lock where
  | shared
  | exclusive
  deriving DecidableEq

structure Estimate where
  rows : Int64
  remark : String
  deriving DecidableEq

inductive Ident where
  | lock
  | estimate
  deriving DecidableEq

abbrev Value : Ident → Type
  | .lock => Lock
  | .estimate => Estimate

def equal : {type : Ident} → Value type → Value type → Bool
  | .lock, a, b => decide (a = b)
  | .estimate, a, b => decide (a.rows = b.rows)

def typeName : Ident → String
  | .lock => "Lock"
  | .estimate => "Estimate"

def digest : {type : Ident} → Value type → Digest
  | .lock, .shared => [Digest.number 0]
  | .lock, .exclusive => [Digest.number 1]
  | .estimate, estimate => [Digest.integer estimate.rows]

def text : {type : Ident} → Value type → String
  | .lock, .shared => "Shared"
  | .lock, .exclusive => "Exclusive"
  | .estimate, estimate => "Estimate(" ++ toString estimate.rows.toInt ++ ")"

/-- A shared hint, apart from equal hints that are shared elsewhere. -/
structure Pointer where
  handle : Handle
  hint : Lock ⊕ Estimate
  deriving DecidableEq

def target (pointer : Pointer) : (type : Ident) × Value type :=
  match pointer.hint with
  | .inl lock => ⟨.lock, lock⟩
  | .inr estimate => ⟨.estimate, estimate⟩

scoped instance types : ForeignTypes where
  Ident := Ident
  Value := Value
  typeName := typeName
  typeDigest type := [.text (typeName type)]
  equal := equal
  digest := digest
  text := text
  Pointer := Pointer
  target := target

theorem equivalence_decide {α β : Type} [DecidableEq β] (f : α → β) :
    Equivalence fun a b => decide (f a = f b) = true := by
  simpa [Function.onFun] using eq_equivalence.comap f

scoped instance : ForeignTypes.LawfulEqual where
  equivalence
    | .lock => equivalence_decide (id : Lock → Lock)
    | .estimate => equivalence_decide Estimate.rows

scoped instance : ForeignTypes.LawfulDigest where
  digest_eq {type a b} hequal := by
    cases type with
    | lock => exact congrArg digest (of_decide_eq_true hequal)
    | estimate => exact congrArg (fun rows => [Digest.integer rows]) (of_decide_eq_true hequal)

scoped instance : ForeignTypes.LawfulText where
  text_eq {type a b} hequal := by
    cases type with
    | lock => exact congrArg text (of_decide_eq_true hequal)
    | estimate =>
        exact congrArg (fun rows : Int64 => "Estimate(" ++ toString rows.toInt ++ ")")
          (of_decide_eq_true hequal)

/-- A lock that is shared under a handle. -/
def lock (handle : Handle) (value : Lock) : Foreign :=
  ⟨⟨handle, .inl value⟩⟩

def estimate (handle : Handle) (rows : Int64) (remark : String) : Foreign :=
  ⟨⟨handle, .inr ⟨rows, remark⟩⟩⟩

end QueryPlan.Hints
