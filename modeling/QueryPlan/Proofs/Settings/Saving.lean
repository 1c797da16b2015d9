import QueryPlan.Proofs.Toml.Sections
import QueryPlan.Proofs.Toml.Statements
import QueryPlan.Settings.Document

/-!
# Loading saved settings

Settings are written as a document in three sections.  The document is read back from its text,
and the settings from the document, whatever strings and words stand in them.  So valid settings
that were saved are loaded again as they were.
-/

namespace QueryPlan

open Toml

namespace Settings

/-! ## The document of settings -/

/-- A word as it is written. -/
def wordValue (word : UInt64) : Value := .integer (writeWord word)

def logEntries (log : LogSettings) : Entries :=
  [("level", .string log.level), ("dir", .string log.directory), ("file", .string log.file),
    ("max_file_size", wordValue log.maxFileSize), ("max_files", wordValue log.maxFiles),
    ("async_write", .boolean log.asynchronous)]

def printerEntries (printer : PrintSettings) : Entries :=
  [("show_annotations", .boolean printer.showAnnotations)]

/-- A cache without a lifetime has no key for it. -/
def lifetimeEntries (lifetime : Option UInt64) : Entries :=
  (lifetime.map fun seconds => ("ttl_seconds", wordValue seconds)).toList

def cacheEntries (cache : CacheSettings) : Entries :=
  ("max_entries", wordValue cache.maxEntries) :: lifetimeEntries cache.lifetime

def sections (settings : Settings) : List (String × Entries) :=
  [("log", logEntries settings.log), ("printer", printerEntries settings.printer),
    ("cache", cacheEntries settings.cache)]

def document (settings : Settings) : Entries :=
  settings.sections.map Entries.sectionTable

/-! ## Reading the document -/

theorem rows_header {name : String} (hname : Reader.IsBareKey name) {text : List Char}
    {statements : List Statement} (hrest : Reader.Rows text statements) :
    Reader.Rows (header name ++ text) (.header [name] :: statements) := by
  have hrows := hrest.header hname
  simpa [header] using hrows

theorem rows_line {key : String} (hkey : Reader.IsBareKey key) {written : List Char}
    {value : Value} (hvalue : Reader.Spells written value) {text : List Char}
    {statements : List Statement} (hrest : Reader.Rows text statements) :
    Reader.Rows (line key written ++ text) (.entry [key] value :: statements) := by
  have hrows := hrest.entry hkey hvalue
  simpa [line] using hrows

theorem spells_word (word : UInt64) : Reader.Spells (writeWord word) (wordValue word) :=
  Reader.spells_toDigits word.toNat

theorem rows_lifetime (lifetime : Option UInt64) :
    Reader.Rows
      (match lifetime with
        | some seconds => line "ttl_seconds" (writeWord seconds)
        | none => [])
      ((lifetimeEntries lifetime).map fun (key, value) => .entry [key] value) := by
  cases lifetime with
  | none => exact .nil
  | some seconds =>
      have hrows := rows_line (by decide : Reader.IsBareKey "ttl_seconds") (spells_word seconds)
        .nil
      rwa [List.append_nil] at hrows

/-- The text of settings is that of their sections. -/
theorem rows_toText (settings : Settings) :
    Reader.Rows settings.toText.toList
      (settings.sections.flatMap Entries.sectionStatements) := by
  simp only [toText, sections, String.toList_ofList, List.append_assoc, List.cons_append,
    List.flatMap_cons, List.flatMap_nil, List.append_nil, Entries.sectionStatements, logEntries,
    printerEntries, cacheEntries, List.map_cons, List.map_nil, List.nil_append]
  refine rows_header (by decide) ?_
  iterate 3 refine rows_line (by decide) (Reader.spells_write _) ?_
  iterate 2 refine rows_line (by decide) (spells_word _) ?_
  refine rows_line (by decide) (Reader.spells_boolean _) (.newline ?_)
  refine rows_header (by decide) ?_
  refine rows_line (by decide) (Reader.spells_boolean _) (.newline ?_)
  refine rows_header (by decide) ?_
  exact rows_line (by decide) (spells_word _) (rows_lifetime _)

theorem nodup_cacheEntries (cache : CacheSettings) :
    ((cacheEntries cache).map (·.1)).Nodup := by
  obtain ⟨maxEntries, lifetime⟩ := cache
  cases lifetime <;> simp [cacheEntries, lifetimeEntries]

/-- The document of settings is read from their text. -/
theorem read?_toText (settings : Settings) :
    Reader.read? settings.toText = some settings.document := by
  have hread := (rows_toText settings).read?_eq
  rw [String.ofList_toList] at hread
  rw [hread]
  refine Entries.ofStatements?_sections (by simp [sections]) fun part hpart => ?_
  simp only [sections, List.mem_cons, List.not_mem_nil, or_false] at hpart
  obtain rfl | rfl | rfl := hpart
  · simp [logEntries]
  · simp [printerEntries]
  · exact nodup_cacheEntries settings.cache

/-! ## Reading the settings -/

theorem word?_wordValue (word : UInt64) : (wordValue word).word? = some word := by
  have hpow : Int.pow 2 64 = ((2 ^ 64 : Nat) : Int) := rfl
  have hlt : (word.toNat : Int) < Int.pow 2 64 := by
    rw [hpow]
    exact Int.ofNat_lt.mpr word.toNat_lt
  rw [wordValue, writeWord, Value.word?, Number.integer?_toDigits, Option.bind_eq_bind,
    Option.bind_some, if_pos ⟨Int.natCast_nonneg _, hlt⟩]
  simp

/-- A section holds no keys but its own. -/
theorem section?_sectionTable {keys : List String} {entries : Entries}
    (hkeys : entries.map (·.1) ⊆ keys) :
    (Value.table .header entries).section? keys = some entries := by
  have hbounded : areBoundedExcept keys entries = true := by
    refine List.all_eq_true.mpr fun entry hentry => ?_
    have hkey := hkeys (List.mem_map_of_mem hentry)
    simp [hkey]
  rw [Value.section?, if_pos hbounded]

theorem ofToml_logEntries (log : LogSettings) :
    LogSettings.ofToml (.table .header (logEntries log)) = some log := by
  rw [LogSettings.ofToml, section?_sectionTable (by simp [logEntries, LogSettings.keys])]
  simp [logEntries, Entries.get?, orDefault, Value.string?, Value.boolean?, word?_wordValue]

theorem ofToml_printerEntries (printer : PrintSettings) :
    PrintSettings.ofToml (.table .header (printerEntries printer)) = some printer := by
  rw [PrintSettings.ofToml, section?_sectionTable (by simp [printerEntries, PrintSettings.keys])]
  simp [printerEntries, Entries.get?, orDefault, Value.boolean?]

theorem get?_cacheEntries (cache : CacheSettings) :
    (cacheEntries cache).get? "max_entries" = some (wordValue cache.maxEntries) ∧
      (cacheEntries cache).get? "ttl_seconds" = cache.lifetime.map wordValue := by
  obtain ⟨maxEntries, lifetime⟩ := cache
  cases lifetime <;> simp [cacheEntries, lifetimeEntries, Entries.get?]

/-- A lifetime that is not written is missing, as it is in the default. -/
theorem ofToml_cacheEntries (cache : CacheSettings) :
    CacheSettings.ofToml (.table .header (cacheEntries cache)) = some cache := by
  have hkeys : (cacheEntries cache).map (·.1) ⊆ CacheSettings.keys := by
    obtain ⟨maxEntries, lifetime⟩ := cache
    cases lifetime <;> simp [cacheEntries, lifetimeEntries, CacheSettings.keys]
  obtain ⟨hmaxEntries, hlifetime⟩ := get?_cacheEntries cache
  rw [CacheSettings.ofToml, section?_sectionTable hkeys]
  simp only [Option.bind_eq_bind, Option.bind_some, hmaxEntries, hlifetime]
  obtain ⟨maxEntries, lifetime⟩ := cache
  cases lifetime with
  | none => simp [orDefault, word?_wordValue, CacheSettings.default]
  | some seconds => simp [orDefault, word?_wordValue]

theorem get?_document (settings : Settings) :
    settings.document.get? "log" = some (.table .header (logEntries settings.log)) ∧
      settings.document.get? "printer" = some (.table .header (printerEntries settings.printer)) ∧
      settings.document.get? "cache" = some (.table .header (cacheEntries settings.cache)) := by
  simp [document, sections, Entries.sectionTable, Entries.get?]

theorem ofToml_document (settings : Settings) : ofToml settings.document = some settings := by
  have hbounded : areBoundedExcept keys settings.document = true := rfl
  obtain ⟨hlog, hprinter, hcache⟩ := get?_document settings
  rw [ofToml, if_pos hbounded, hlog, hprinter, hcache]
  simp [orDefault, ofToml_logEntries, ofToml_printerEntries, ofToml_cacheEntries]

theorem ofText_of_read? {text : String} {settings : Settings}
    (hread : (Reader.read? text).bind ofToml = some settings) :
    ofText text =
      match settings.validate with
      | .error fault => .error (.invalid fault)
      | .ok () => .ok settings := by
  cases hvalid : settings.validate <;> simp [ofText, hread, hvalid]

/-- What was saved is checked again when it is loaded, and is otherwise left as it was. -/
theorem ofText_toText (settings : Settings) :
    ofText settings.toText =
      match settings.validate with
      | .error fault => .error (.invalid fault)
      | .ok () => .ok settings :=
  ofText_of_read? (by rw [read?_toText, Option.bind_some, ofToml_document])

/-- Valid settings are loaded from the text in which they were saved.  Only a lifetime that they
have is written. -/
theorem saved_settings_load_back (settings : Settings) (hvalid : settings.validate = .ok ()) :
    load (some settings.toText) = .ok settings ∧
      ∃ document cache, Reader.read? settings.toText = some document ∧
        Entries.get? document "cache" = some (.table .header cache) ∧
        (Entries.get? cache "ttl_seconds" = none ↔ settings.cache.lifetime = none) := by
  have hload : ofText settings.toText = .ok settings := by rw [ofText_toText, hvalid]
  refine ⟨hload, settings.document, cacheEntries settings.cache, read?_toText settings,
    (get?_document settings).2.2, ?_⟩
  rw [(get?_cacheEntries settings.cache).2, Option.map_eq_none_iff]

/-- Strings with quotes of both kinds, a backslash and a line break, and the largest words. -/
theorem saved_settings_load_back_quoted :
    ∃ settings : Settings, settings.validate = .ok () ∧ settings.log.level = "it's \"loud\"" ∧
      settings.log.directory = "C:\\logs" ∧ settings.log.file = "'''\"\"\"\n" ∧
      settings.log.maxFiles = 18446744073709551615 ∧ settings.cache.lifetime = none ∧
      load (some settings.toText) = .ok settings :=
  let settings : Settings :=
    ⟨⟨"it's \"loud\"", "C:\\logs", "'''\"\"\"\n", 0, 18446744073709551615, false⟩, ⟨false⟩,
      ⟨18446744073709551615, none⟩⟩
  ⟨settings, rfl, rfl, rfl, rfl, rfl, rfl, (saved_settings_load_back settings rfl).1⟩

end Settings

end QueryPlan
