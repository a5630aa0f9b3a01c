import TaggedHeader.Diagnostic
import TaggedHeader.FileTree

/-!
# What stops work on a project

Each cause has a code by which programs tell it from others, and a sentence for people.
-/

namespace TaggedHeader

/-- Why work on a project stops. -/
inductive ProjectError where
  /-- Files cannot be read or written. -/
  | file (error : FileError)
  /-- The configuration is no document of settings. -/
  | configSyntax
  /-- A pattern for headers is none. -/
  | invalidPattern (pattern : Text) (reason : String)
  /-- A header cannot be converted. -/
  | header (error : TransformError)
  /-- Two headers have the same module interface. -/
  | outputCollision (first second output : Path)
  /-- A module interface is not what its header yields. -/
  | staleModule (input output : Path)
deriving DecidableEq, Repr

namespace ProjectError

/-- The code of a cause. -/
def code : ProjectError → String
  | .file _ => "modtag::io_error"
  | .configSyntax => "modtag::config_parse"
  | .invalidPattern _ _ => "modtag::invalid_pattern"
  | .header _ => "modtag::nested_region"
  | .outputCollision _ _ _ => "modtag::output_collision"
  | .staleModule _ _ => "modtag::stale_module"

/-- A path in a sentence. -/
def shown (path : Path) : String := "`" ++ String.ofList path.text ++ "`"

/-- The sentence that explains a cause. -/
def message : ProjectError → String
  | .file error => error.message
  | .configSyntax => "failed to parse config file"
  | .invalidPattern pattern reason =>
    "invalid file pattern `" ++ String.ofList pattern ++ "`: " ++ reason
  | .header error => error.message
  | .outputCollision first second output =>
    shown first ++ " and " ++ shown second ++ " both produce " ++ shown output
  | .staleModule input output =>
    "module interface " ++ shown output ++ " is out of date with " ++ shown input

/-- What someone can do about a cause. -/
def help? : ProjectError → Option String
  | .file _ | .invalidPattern _ _ => none
  | .configSyntax => some <|
    "check that modtag.toml is valid TOML with [output], [include], [exclude] and/or " ++
      "[transform] sections"
  | .header _ => some <|
    "ignore, exclude and `/*[[ ... ]]*/` regions cannot contain each other; close the outer " ++
      "region before opening the next one"
  | .outputCollision _ _ _ => some <|
    "headers with the same file stem must be converted into different destination directories"
  | .staleModule _ _ => some "run `modtag convert` to regenerate module interfaces"

/-- An operation on files as a step of work on a project. -/
def ofFile {α : Type} (result : Except FileError α) : Except ProjectError α := result.mapError .file

end ProjectError
end TaggedHeader
