import QueryPlan.Cache.Settings
import QueryPlan.Node.Printer

/-!
# Settings

Everything that a user may set: logging, printing and the plan cache.  What is
not set has a default.
-/

namespace QueryPlan

structure LogSettings where
  level : String
  directory : String
  file : String
  maxFileSize : UInt64
  maxFiles : UInt64
  /-- Whether log lines are written in the background. -/
  asynchronous : Bool
  deriving DecidableEq

/-- Files of a hundred megabytes. -/
def LogSettings.default : LogSettings :=
  ⟨"info", "logs", "sqltree", 104857600, 5, true⟩

structure Settings where
  log : LogSettings
  printer : PrintSettings
  cache : CacheSettings
  deriving DecidableEq

inductive SettingsError where
  /-- There is no file to read. -/
  | unreadable
  /-- The text is no settings file. -/
  | malformed
  | invalid (fault : SettingsFault)
  deriving DecidableEq

def SettingsError.message : SettingsError → String
  | .unreadable => "读写配置文件失败"
  | .malformed => "解析配置文件失败"
  | .invalid fault => "配置项无效: " ++ fault.message

namespace Settings

def default : Settings := ⟨.default, .default, .default⟩

/-- The cache is looked at before the log. -/
def validate (settings : Settings) : Except SettingsFault Unit :=
  match settings.cache.validate with
  | .error fault => .error fault
  | .ok () =>
      if settings.log.maxFiles = 0 then .error .noLogFiles else .ok ()

end Settings

end QueryPlan
