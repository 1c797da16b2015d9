/-!
# Settings of the plan cache

How many plans are kept, and for how many seconds.
-/

namespace QueryPlan

structure CacheSettings where
  maxEntries : UInt64
  /-- A plan without a lifetime does not expire. -/
  lifetime : Option UInt64
  deriving DecidableEq

/-- What can be wrong with settings that are well written. -/
inductive SettingsFault where
  | noCacheEntries
  | noCacheLifetime
  | noLogFiles
  deriving DecidableEq

def SettingsFault.message : SettingsFault → String
  | .noCacheEntries => "缓存大小必须大于0"
  | .noCacheLifetime => "缓存存活时间必须大于0"
  | .noLogFiles => "日志文件保留数必须大于0"

namespace CacheSettings

def default : CacheSettings := ⟨1000, none⟩

/-- The number of entries is looked at first. -/
def validate (settings : CacheSettings) : Except SettingsFault Unit :=
  if settings.maxEntries = 0 then .error .noCacheEntries
  else if settings.lifetime = some 0 then .error .noCacheLifetime
  else .ok ()

/-- The longest lifetime that a cache can be built with: a thousand years of
365 days. -/
def longestLifetime : UInt64 := 31536000000

end CacheSettings

end QueryPlan
