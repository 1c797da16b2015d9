import QueryPlan.Kind

/-!
# Journals

What rewriting and caching report while they work, in the order in which it
happened.
-/

namespace QueryPlan

inductive Record where
  /-- A rule answered a new node. -/
  | ruleApplied (rule : String) (old new : Kind)
  /-- A pass changed nothing. -/
  | fixpointReached (pass : Nat)
  /-- The last pass that was allowed still changed something. -/
  | passesExhausted (passes : Nat)
  /-- A plan was computed because the cache had none. -/
  | planComputed (kind : Kind)
  deriving DecidableEq

abbrev Journal := List Record

namespace Record

/-- The importance of a record. -/
def level : Record → String
  | ruleApplied .. | planComputed _ => "DEBUG"
  | fixpointReached _ => "TRACE"
  | passesExhausted _ => "WARN"

def message : Record → String
  | ruleApplied rule old new =>
      "规则 " ++ rule ++ " 改写了 " ++ old.name ++ " 节点为 " ++ new.name
  | fixpointReached pass =>
      "重写在第 " ++ toString pass ++ " 轮达到不动点"
  | passesExhausted passes =>
      "重写在 " ++ toString passes ++ " 轮后仍未达到不动点，返回最后一轮的结果"
  | planComputed kind =>
      "计划缓存未命中，已计算 " ++ kind.name ++ " 节点的计划"

/-- A record as one line. -/
def text (record : Record) : String :=
  record.level ++ " " ++ record.message

end Record

end QueryPlan
