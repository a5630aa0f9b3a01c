import TaggedHeader.Path
import TaggedHeader.ProjectError
import TaggedHeader.Text.LineEnding
import TaggedHeader.Transform

/-!
# Converting the headers of a project

Headers are converted in memory first, all of them or none, and no two may have the same module interface. What
was converted is then written, or compared with what was written before.
-/

namespace TaggedHeader

open Text

/-- How headers are converted, and where their module interfaces go. -/
structure ConversionSettings where
  destination : Path
  /-- The extension of the module interfaces, without a dot. -/
  extension : Text
  options : TransformOptions
deriving DecidableEq, Repr

/-- A header converted in memory. -/
structure ConvertedFile where
  input : Path
  output : Path
  /-- The module interface. -/
  text : Text
  /-- The tags left in the text. -/
  diagnostics : List Diagnostic
deriving DecidableEq, Repr

/-- The path of the module interface of a header: in the destination, named after the stem of the header. -/
def outputPath (input destination : Path) (extension : Text) : Path :=
  destination.join ⟨(input.fileStem?.getD input.text) ++ '.' :: extension⟩

/-- Reads and converts a header. -/
def convertFile (tree : FileTree) (settings : ConversionSettings) (input : Path) :
    Except ProjectError ConvertedFile := do
  let source ← ProjectError.ofFile (tree.readText input)
  let result ← (transform settings.options (normalizeLineEndings source)).mapError .header
  return {
    input
    output := outputPath input settings.destination settings.extension
    text := result.text
    diagnostics := result.diagnostics }

/-- The first file whose output an earlier file has too, behind that earlier file. -/
def findCollision? (earlier : List ConvertedFile) : List ConvertedFile → Option (ConvertedFile × ConvertedFile)
  | [] => none
  | file :: files =>
    match earlier.find? (·.output.sameAs file.output) with
    | some first => some (first, file)
    | none => findCollision? (file :: earlier) files

/-- Passes converted files on unless two of them have the same output. -/
def rejectCollisions (files : List ConvertedFile) : Except ProjectError (List ConvertedFile) :=
  match findCollision? [] files with
  | some (first, second) => .error (.outputCollision first.input second.input second.output)
  | none => .ok files

/-- Converts headers in order, up to the first that fails. -/
def convertFiles (tree : FileTree) (settings : ConversionSettings) (inputs : List Path) :
    Except ProjectError (List ConvertedFile) := do
  let files ← inputs.mapM (convertFile tree settings)
  rejectCollisions files

/-- How many tags are left in all files. -/
def diagnosticCount (files : List ConvertedFile) : Nat :=
  files.foldr (fun file count => file.diagnostics.length + count) 0

/-- Writes a module interface, with the directories on the way to it. -/
def writeOutput (tree : FileTree) (file : ConvertedFile) : FileTree.Outcome :=
  let (prepared, failure) := match file.output.parent? with
    | some parent => tree.makeDirectories parent.components
    | none => (tree, none)
  match failure with
  | some error => (prepared, some error)
  | none => prepared.write file.output (.text file.text)

/-- Writes module interfaces in order, up to the first that cannot be written. -/
def writeOutputs (tree : FileTree) : List ConvertedFile → FileTree.Outcome
  | [] => (tree, none)
  | file :: files =>
    match writeOutput tree file with
    | (written, some error) => (written, some error)
    | (written, none) => writeOutputs written files

/-- A module interface that is missing or is not what its header yields. -/
structure StaleEntry where
  input : Path
  output : Path
  /-- What is in its place, none when there is no text. -/
  current : Option Text
  expected : Text
deriving DecidableEq, Repr

/-- Whether there is no module interface at all. -/
def StaleEntry.isMissing (entry : StaleEntry) : Bool := entry.current.isNone

/-- The error that a stale module interface is. -/
def StaleEntry.error (entry : StaleEntry) : ProjectError := .staleModule entry.input entry.output

/-- Compares a converted file with what is in its place. -/
def checkOutput? (tree : FileTree) (file : ConvertedFile) : Option StaleEntry :=
  let current := (tree.readText file.output).toOption.map normalizeLineEndings
  if current = some file.text then none
  else some ⟨file.input, file.output, current, file.text⟩

/-- The converted files whose module interfaces are stale. -/
def checkOutputs (tree : FileTree) (files : List ConvertedFile) : List StaleEntry :=
  files.filterMap (checkOutput? tree)

end TaggedHeader
