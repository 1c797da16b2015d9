import QueryPlan.Cache.Basic
import QueryPlan.Node.Error
import QueryPlan.Rewrite.ForwardingTable
import QueryPlan.Settings.Basic

/-!
# Failures

A fault of any part of the library, and its message, which begins with the part
that it comes from.
-/

namespace QueryPlan

inductive Failure where
  | node (fault : NodeError)
  | forwarding (fault : ForwardingError)
  | cache (fault : CacheError)
  | settings (fault : SettingsError)
  deriving DecidableEq

def Failure.message : Failure → String
  | .node fault => "节点错误: " ++ fault.message
  | .forwarding fault => "转发注册表错误: " ++ fault.message
  | .cache fault => "缓存错误: " ++ fault.message
  | .settings fault => "配置错误: " ++ fault.message

end QueryPlan
