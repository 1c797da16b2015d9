import QueryPlan.Settings.Basic
import QueryPlan.Toml.Bounds
import QueryPlan.Toml.Reader

/-!
# Settings files

Settings are kept as a TOML document with one table for each part.  Reading
passes over what it does not know and takes defaults for what is missing.  A
part may also be given as the array of its values in order, or as a date or a
time, which sets none of them.  Writing sets every key, except that a cache
without a lifetime has none.
-/

namespace QueryPlan

namespace Toml

/-- Whether the numbers under all other keys fit, so that they can be passed
over. -/
def areBoundedExcept (keys : List String) (entries : Entries) : Bool :=
  entries.all fun (key, value) => keys.contains key || value.isBounded

/-- The entries of a part with the given keys.  An array holds their values in
order; nobody looks at values beyond the last key. -/
def Value.section? (keys : List String) : Value → Option Entries
  | .table _ entries => if areBoundedExcept keys entries then some entries else none
  | .array items => some (keys.zip items)
  | .moment _ => some []
  | _ => none

def Value.string? : Value → Option String
  | .string text => some text
  | _ => none

def Value.boolean? : Value → Option Bool
  | .boolean value => some value
  | _ => none

/-- An integer in the range of unsigned words. -/
def Value.word? : Value → Option UInt64
  | .integer word => do
      let value ← Number.integer? word
      if 0 ≤ value ∧ value < Int.pow 2 64 then some (UInt64.ofNat value.toNat)
      else none
  | _ => none

/-- Reads a value that may be missing. -/
def orDefault {α : Type} (read : Value → Option α) (default : α) :
    Option Value → Option α
  | none => some default
  | some value => read value

end Toml

open Toml

namespace LogSettings

def keys : List String :=
  ["level", "dir", "file", "max_file_size", "max_files", "async_write"]

def ofToml (value : Value) : Option LogSettings := do
  let entries ← value.section? keys
  return {
    level := ← orDefault Value.string? default.level (entries.get? "level")
    directory := ← orDefault Value.string? default.directory (entries.get? "dir")
    file := ← orDefault Value.string? default.file (entries.get? "file")
    maxFileSize := ← orDefault Value.word? default.maxFileSize
      (entries.get? "max_file_size")
    maxFiles := ← orDefault Value.word? default.maxFiles (entries.get? "max_files")
    asynchronous := ← orDefault Value.boolean? default.asynchronous
      (entries.get? "async_write") }

end LogSettings

namespace PrintSettings

def keys : List String := ["show_annotations"]

def ofToml (value : Value) : Option PrintSettings := do
  let entries ← value.section? keys
  return ⟨← orDefault Value.boolean? default.showAnnotations
    (entries.get? "show_annotations")⟩

end PrintSettings

namespace CacheSettings

def keys : List String := ["max_entries", "ttl_seconds"]

def ofToml (value : Value) : Option CacheSettings := do
  let entries ← value.section? keys
  return {
    maxEntries := ← orDefault Value.word? default.maxEntries
      (entries.get? "max_entries")
    lifetime := ← orDefault (fun value => value.word?.map some) default.lifetime
      (entries.get? "ttl_seconds") }

end CacheSettings

namespace Settings

def keys : List String := ["log", "printer", "cache"]

def ofToml (entries : Entries) : Option Settings :=
  if areBoundedExcept keys entries then do
    return {
      log := ← orDefault LogSettings.ofToml .default (entries.get? "log")
      printer := ← orDefault PrintSettings.ofToml .default (entries.get? "printer")
      cache := ← orDefault CacheSettings.ofToml .default (entries.get? "cache") }
  else none

/-- The settings in a text. -/
def ofText (text : String) : Except SettingsError Settings :=
  match (Reader.read? text).bind ofToml with
  | none => .error .malformed
  | some settings =>
      match settings.validate with
      | .error fault => .error (.invalid fault)
      | .ok () => .ok settings

/-- The settings in a file that has the given content, or is missing. -/
def load : Option String → Except SettingsError Settings
  | none => .error .unreadable
  | some text => ofText text

def header (name : String) : List Char :=
  '[' :: name.toList ++ [']', '\n']

/-- One key with its value on a line. -/
def line (key : String) (value : List Char) : List Char :=
  key.toList ++ [' ', '=', ' '] ++ value ++ ['\n']

def writeString (text : String) : List Char :=
  Quoting.write text.toList

def writeWord (value : UInt64) : List Char :=
  Nat.toDigits 10 value.toNat

def writeBoolean (value : Bool) : List Char :=
  (if value then "true" else "false").toList

/-- The text of a settings file. -/
def toText (settings : Settings) : String :=
  String.ofList
    (header "log"
      ++ line "level" (writeString settings.log.level)
      ++ line "dir" (writeString settings.log.directory)
      ++ line "file" (writeString settings.log.file)
      ++ line "max_file_size" (writeWord settings.log.maxFileSize)
      ++ line "max_files" (writeWord settings.log.maxFiles)
      ++ line "async_write" (writeBoolean settings.log.asynchronous)
      ++ '\n' :: header "printer"
      ++ line "show_annotations" (writeBoolean settings.printer.showAnnotations)
      ++ '\n' :: header "cache"
      ++ line "max_entries" (writeWord settings.cache.maxEntries)
      ++ match settings.cache.lifetime with
        | some seconds => line "ttl_seconds" (writeWord seconds)
        | none => [])

end Settings

end QueryPlan
