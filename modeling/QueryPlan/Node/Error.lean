import QueryPlan.DataType
import QueryPlan.Kind

/-!
# Faults in building plans

What can be wrong with the parts from which a node is built, and the wording of
each fault.
-/

namespace QueryPlan

inductive NodeError where
  /-- A child stands where a node of the other category is needed. -/
  | wrongCategory (parent : Kind) (expected : Category) (found : Kind)
  | childCount (parent : Kind) (expected found : Nat)
  | nonBooleanPredicate (join : Kind) (found : DataType)
  /-- A parameter is bound to a value that its declared type does not take. -/
  | incompatibleBinding (parameter : String) (declared bound : DataType)
  /-- A fault that an operation of the caller reports. -/
  | rejected (subject expected found : String)
  /-- A top-down transformation went deeper than it was allowed to. -/
  | depthExhausted
  deriving DecidableEq

namespace NodeError

/-- The wording shared by all faults that set a finding against an
expectation. -/
def violation (subject expected found : String) : String :=
  "节点不变量被破坏: " ++ subject ++ " 期望 " ++ expected ++ ", 实际为 " ++ found

def message : NodeError → String
  | wrongCategory parent expected found =>
      violation parent.name expected.name found.name
  | childCount parent expected found =>
      "子节点数量不匹配: " ++ parent.name ++ " 期望 " ++ toString expected
        ++ " 个, 实际为 " ++ toString found ++ " 个"
  | nonBooleanPredicate join found =>
      "连接谓词必须为布尔类型: " ++ join.name ++ " 的谓词类型为 " ++ found.name
  | incompatibleBinding parameter declared bound =>
      violation "Parameter" "与参数声明类型兼容的绑定值"
        ("@" ++ parameter ++ " 声明为 " ++ declared.name ++ "，绑定值为 " ++ bound.name)
  | rejected subject expected found => violation subject expected found
  | depthExhausted => "变换超出允许的深度"

end NodeError

end QueryPlan
