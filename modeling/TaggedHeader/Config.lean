import TaggedHeader.Path
import TaggedHeader.Toml.Parser
import TaggedHeader.Transform

/-!
# Project configuration

A project is configured by a TOML document at its root. Keys that mean nothing here are passed over; a key that
has a meaning has to have a value of the right kind. A table of settings may also be written as an array of its
settings in their order.
-/

namespace TaggedHeader

open Toml

/-- Where a configuration may stand below the root of its project, the first that exists counts. -/
def configCandidates : List Path :=
  [.ofString "modtag.toml", .ofString ".modtag.toml", .ofString ".config/modtag.toml"]

/-- The configuration of a project. -/
structure Config where
  /-- The directory of the module interfaces, relative to the root. -/
  outputDirectory : Path := .ofString "modules"
  /-- The extension of the module interfaces, without a dot. -/
  outputExtension : Text := "cppm".toList
  /-- The patterns of the headers to convert, as they are written. -/
  includes : List Text := []
  /-- The ignore rules for headers not to convert. -/
  excludes : List Text := []
  /-- How headers are converted. -/
  transform : TransformOptions := {}
  /-- Whether the ignore rules of the root's own file do not count. -/
  disableGitignore : Bool := false

namespace Config

/-- The patterns of the headers to convert where none are written. -/
def defaultInclude : List Text := ["**/*.h".toList, "**/*.hpp".toList]

/-- The patterns of the headers to convert. -/
def includePatterns (config : Config) : List Text :=
  if config.includes.isEmpty then defaultInclude else config.includes

/-- Reads text. -/
def readText? : Value → Option Text
  | .string text => some text
  | _ => none

/-- Reads a truth value. -/
def readFlag? : Value → Option Bool
  | .boolean flag => some flag
  | _ => none

/-- Reads a list of texts. -/
def readTexts? : Value → Option (List Text)
  | .array _ items => items.mapM readText?
  | _ => none

/-- The value of a setting in a table of settings, which is found by its key, or in an array of settings by its
place. The outer answer is none where the settings are neither. -/
def setting? (key : Text) (place : Nat) : Value → Option (Option Value)
  | .table _ entries => some (Entries.find? key entries)
  | .array _ items => some items[place]?
  | _ => none

/-- Reads a setting, or takes its default where it is missing. -/
def readSetting? {α : Type} (read? : Value → Option α) (default : α) (key : String) (place : Nat)
    (settings : Value) : Option α :=
  match setting? key.toList place settings with
  | none => none
  | some none => some default
  | some (some value) => read? value

/-- Reads a table of settings of a document, or takes the defaults where it is missing. -/
def readSection? {α : Type} (read? : Value → Option α) (default : α) (key : String)
    (document : Entries) : Option α :=
  match document.find? key.toList with
  | none => some default
  | some value => read? value

/-- Reads where the module interfaces go. -/
def readOutput? (settings : Value) : Option (Path × Text) := do
  let defaults : Config := {}
  let directory ← readSetting? readText? defaults.outputDirectory.text "dir" 0 settings
  let extension ← readSetting? readText? defaults.outputExtension "extension" 1 settings
  return (⟨directory⟩, extension)

/-- Reads a list of patterns. -/
def readPatterns? (settings : Value) : Option (List Text) :=
  readSetting? readTexts? [] "patterns" 0 settings

/-- Reads how headers are converted. -/
def readTransform? (settings : Value) : Option TransformOptions :=
  (readSetting? readFlag? false "disable_include_import" 0 settings).map (⟨·⟩)

/-- Reads a configuration from a document. -/
def ofDocument? (document : Entries) : Option Config := do
  let defaults : Config := {}
  let (outputDirectory, outputExtension) ← readSection? readOutput?
    (defaults.outputDirectory, defaults.outputExtension) "output" document
  let included ← readSection? readPatterns? [] "include" document
  let excluded ← readSection? readPatterns? [] "exclude" document
  let transform ← readSection? readTransform? {} "transform" document
  let disableGitignore ← readSection? readFlag? false "disable_gitignore" document
  return ⟨outputDirectory, outputExtension, included, excluded, transform, disableGitignore⟩

/-- Reads a configuration. -/
def parse? (text : Text) : Option Config := (Toml.parse? text).bind ofDocument?

end Config
end TaggedHeader
