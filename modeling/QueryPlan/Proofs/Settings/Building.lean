import QueryPlan.Proofs.Annotations.Hints
import QueryPlan.Proofs.Cache.Operations
import QueryPlan.Proofs.Settings.Saving

/-!
# Building a cache for loaded settings

Settings are checked when they are loaded, and their cache section again when a cache is built.
Both checks refuse the same sections for the same reasons.  Neither looks at the longest lifetime
that a cache can have, so that a cache is built for loaded settings only within that limit.
-/

namespace QueryPlan

/-- The section asks for no lifetime beyond the longest. -/
def CacheSettings.LivesWithinLimit (settings : CacheSettings) : Prop :=
  ∀ seconds ∈ settings.lifetime, seconds ≤ CacheSettings.longestLifetime

theorem CacheSettings.any_longestLifetime_lt_iff (settings : CacheSettings) :
    settings.lifetime.any (longestLifetime < ·) = true ↔ ¬ settings.LivesWithinLimit := by
  simp [Option.any_eq_true, LivesWithinLimit, UInt64.not_le]

/-! ## Loading -/

namespace Settings

theorem validate_of_invalid_cache {settings : Settings} {fault : SettingsFault}
    (hinvalid : settings.cache.validate = .error fault) : settings.validate = .error fault := by
  rw [validate, hinvalid]

theorem cache_validate_of_validate {settings : Settings} (hvalid : settings.validate = .ok ()) :
    settings.cache.validate = .ok () := by
  cases hcache : settings.cache.validate with
  | ok => rfl
  | error fault => simp [validate_of_invalid_cache hcache] at hvalid

theorem validate_of_ofText {text : String} {settings : Settings}
    (hloaded : ofText text = .ok settings) : settings.validate = .ok () := by
  unfold ofText at hloaded
  split at hloaded
  · contradiction
  · split at hloaded
    · contradiction
    · obtain rfl := Except.ok.inj hloaded
      assumption

/-- The cache sections of loaded settings are the valid ones. -/
theorem exists_ofText_iff (cache : CacheSettings) :
    (∃ text settings, ofText text = .ok settings ∧ settings.cache = cache) ↔
      cache.validate = .ok () := by
  constructor
  · rintro ⟨text, settings, hloaded, rfl⟩
    exact cache_validate_of_validate (validate_of_ofText hloaded)
  · intro hvalid
    let settings : Settings := ⟨.default, .default, cache⟩
    have hsettings : settings.validate = .ok () := by
      simp [settings, validate, hvalid, LogSettings.default]
    exact ⟨settings.toText, settings, by rw [ofText_toText, hsettings], rfl⟩

end Settings

/-! ## Building -/

section

variable [ForeignTypes]

namespace PlanCacheOn

variable {T V : Type} [PlanTable T V] {settings : CacheSettings}

theorem create_of_invalid {fault : SettingsFault} (hinvalid : settings.validate = .error fault) :
    (create settings : Except CacheError (PlanCacheOn T)) = .error (.invalidSettings fault) := by
  rw [create, hinvalid]

theorem create_of_within (hvalid : settings.validate = .ok ())
    (hwithin : settings.LivesWithinLimit) :
    (create settings : Except CacheError (PlanCacheOn T))
      = .ok ⟨settings, PlanTable.build settings, .zero⟩ := by
  have hlimit := mt settings.any_longestLifetime_lt_iff.mp (not_not.mpr hwithin)
  rw [create, hvalid]
  exact if_neg hlimit

theorem create_of_beyond (hvalid : settings.validate = .ok ())
    (hbeyond : ¬ settings.LivesWithinLimit) :
    (create settings : Except CacheError (PlanCacheOn T)) = .error .unsupportedLifetime := by
  have hlimit := settings.any_longestLifetime_lt_iff.mpr hbeyond
  rw [create, hvalid]
  exact if_pos hlimit

end PlanCacheOn

namespace Settings

/-- For settings that are loaded from any text, a cache is built if their lifetime is within the
limit, and beyond it none can be built.  Every valid section is loaded from some text, those beyond
the limit too.  A section that is not valid is refused by both checks for the same reason. -/
theorem loaded_settings_build_cache {T V : Type} [PlanTable T V] :
    (∀ text settings, ofText text = .ok settings → settings.cache.LivesWithinLimit →
      (PlanCacheOn.create settings.cache : Except CacheError (PlanCacheOn T))
        = .ok ⟨settings.cache, PlanTable.build settings.cache, .zero⟩) ∧
    (∀ text settings, ofText text = .ok settings → ¬ settings.cache.LivesWithinLimit →
      (PlanCacheOn.create settings.cache : Except CacheError (PlanCacheOn T))
        = .error .unsupportedLifetime) ∧
    (∀ cache : CacheSettings, (∃ text settings, ofText text = .ok settings ∧
      settings.cache = cache) ↔ cache.validate = .ok ()) ∧
    ∀ (settings : Settings) (fault : SettingsFault), settings.cache.validate = .error fault →
      ofText settings.toText = .error (.invalid fault) ∧
        (PlanCacheOn.create settings.cache : Except CacheError (PlanCacheOn T))
          = .error (.invalidSettings fault) := by
  refine ⟨?_, ?_, exists_ofText_iff, ?_⟩
  · intro text settings hloaded hwithin
    exact PlanCacheOn.create_of_within
      (cache_validate_of_validate (validate_of_ofText hloaded)) hwithin
  · intro text settings hloaded hbeyond
    exact PlanCacheOn.create_of_beyond
      (cache_validate_of_validate (validate_of_ofText hloaded)) hbeyond
  · intro settings fault hinvalid
    refine ⟨?_, PlanCacheOn.create_of_invalid hinvalid⟩
    rw [ofText_toText, validate_of_invalid_cache hinvalid]

end Settings

end

open scoped Hints

namespace Settings

/-- The longest lifetime. -/
theorem loaded_settings_build_cache_longest :
    ∃ settings, ofText "[cache]\nttl_seconds = 31536000000\n" = .ok settings ∧
      settings.cache.LivesWithinLimit ∧
      (PlanCache.create settings.cache : Except CacheError (PlanCache String))
        = .ok ⟨⟨1000, some 31536000000⟩, [], .zero⟩ := by
  let settings : Settings := ⟨.default, .default, ⟨1000, some 31536000000⟩⟩
  have hread : (Toml.Reader.read? "[cache]\nttl_seconds = 31536000000\n").bind ofToml
      = some settings := by decide +kernel
  have hloaded := ofText_of_read? hread
  have hwithin : settings.cache.LivesWithinLimit := by
    simp [settings, CacheSettings.LivesWithinLimit, CacheSettings.longestLifetime]
  exact ⟨settings, hloaded, hwithin, loaded_settings_build_cache.1 _ _ hloaded hwithin⟩

/-- Settings with a lifetime one second longer are loaded, but no cache can be built for them. -/
theorem loaded_beyond_longest_lifetime :
    ∃ settings, ofText "[cache]\nttl_seconds = 31536000001\n" = .ok settings ∧
      (PlanCache.create settings.cache : Except CacheError (PlanCache String))
        = .error .unsupportedLifetime := by
  let settings : Settings := ⟨.default, .default, ⟨1000, some 31536000001⟩⟩
  have hread : (Toml.Reader.read? "[cache]\nttl_seconds = 31536000001\n").bind ofToml
      = some settings := by decide +kernel
  exact ⟨settings, ofText_of_read? hread, rfl⟩

end Settings

end QueryPlan
