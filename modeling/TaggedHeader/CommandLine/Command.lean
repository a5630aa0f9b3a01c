import TaggedHeader.CommandLine.Arguments
import TaggedHeader.CommandLine.Style
import TaggedHeader.Conversion
import TaggedHeader.Discovery
import TaggedHeader.LineDiff

/-!
# Carrying out a command

A command works on a tree of files and writes to two streams. `run` is the whole program as a function: from a
tree and the arguments to what is written, the exit code and the tree afterwards. The code is 0 for success, 1 when
module interfaces are stale or no command is given, and 2 when something fails.
-/

namespace TaggedHeader.CommandLine

open Text

/-- A failure as it is reported: its cause, and the header it points into with the header's text. -/
structure Report where
  error : ProjectError
  source : Option (Path × Text)
deriving DecidableEq, Repr

/-- A failure that points into no header. -/
def Report.plain (error : ProjectError) : Report := ⟨error, none⟩

/-- The state of the program while it runs. -/
structure Session where
  tree : FileTree
  /-- Whether output is coloured. -/
  coloured : Bool
  stdout : String
  stderr : String
deriving DecidableEq, Repr

/-- A part of the program: it works on a session and may fail. -/
abbrev Procedure (α : Type) := ExceptT Report (StateM Session) α

namespace Procedure

/-- Writes a text to standard output. -/
def out (text : String) : Procedure Unit :=
  modify fun session => { session with stdout := session.stdout ++ text }

/-- Writes a text to standard error. -/
def err (text : String) : Procedure Unit :=
  modify fun session => { session with stderr := session.stderr ++ text }

/-- A text in a style, if output is coloured. -/
def painted (style : Style) (text : String) : Procedure String :=
  return paint (← get).coloured style text

/-- A step of work on a project that leaves the tree alone. -/
def ofProject {α : Type} (result : Except ProjectError α) : Procedure α :=
  match result with
  | .ok value => pure value
  | .error error => throw (.plain error)

/-- A step of work that may change the tree, even when it fails. -/
def changeTree (change : FileTree → FileTree.Outcome) : Procedure Unit := do
  let (tree, failure) := change (← get).tree
  modify fun session => { session with tree }
  match failure with
  | none => return
  | some error => throw (.plain (.file error))

end Procedure

open Procedure

/-- A path as text. -/
def shownPath (path : Path) : String := String.ofList path.text

/-- A path below the root of the project as it is shown. -/
def relativePath (path root : Path) : String := shownPath (path.relativeTo root)

/-! ## What a command works on -/

/-- The headers to convert and all that decides how, from the configuration and the arguments. -/
structure Job where
  root : Path
  inputs : List Path
  settings : ConversionSettings
deriving DecidableEq, Repr

/-- Paths behind a path without those that are the same as the one kept before them. -/
def withoutRepeatsOf (last : Path) : List Path → List Path
  | [] => []
  | path :: paths =>
    if last.sameAs path then withoutRepeatsOf last paths else path :: withoutRepeatsOf path paths

/-- Paths without those that are the same as the path before them. -/
def withoutRepeats : List Path → List Path
  | [] => []
  | path :: paths => path :: withoutRepeatsOf path paths

/-- The headers that a named input stands for; one that does not exist is reported. -/
def expandInput (options : ScanOptions) (input : Path) : Procedure (List Path) := do
  let tree := (← get).tree
  if tree.isDirectory input then ofProject (discoverHeaders tree input options)
  else if tree.isFile input then return [input]
  else
    err ((← painted .yellow "warning:") ++ " File not found: " ++ shownPath input ++ "\n")
    return []

/-- The headers that all named inputs stand for, in order. -/
def expandInputs (options : ScanOptions) : List Path → Procedure (List Path)
  | [] => return []
  | input :: inputs => do
    let found ← expandInput options input
    return found ++ (← expandInputs options inputs)

/-- Settles what a command works on. -/
def prepare (path : Option Path) (target : Target) : Procedure Job := do
  let tree := (← get).tree
  let root := path.getD (.ofComponents (.root :: tree.workingDirectory.map .normal))
  let config := (← ofProject (loadConfig tree root)).getD {}
  let options ← ofProject (ScanOptions.ofConfig config)
  let inputs ←
    if target.inputs.isEmpty then ofProject (discoverHeaders tree root options)
    else do
      let found ← expandInputs options target.inputs
      pure (withoutRepeats (found.mergeSort Path.precedes))
  return {
    root
    inputs
    settings :=
      { destination := target.destination.getD (root.join config.outputDirectory)
        extension := config.outputExtension
        options := ⟨config.transform.disableIncludeImport || target.noImplicit⟩ } }

/-- The report of a header that cannot be converted. Regions inside regions are shown in the header. -/
def reportOf (tree : FileTree) (root input : Path) (error : ProjectError) : Report :=
  match error with
  | .header (.nestedRegion _ _ _) =>
    match tree.readText input with
    | .ok source => ⟨error, some (input.relativeTo root, normalizeLineEndings source)⟩
    | .error failure => .plain (.file failure)
  | _ => .plain error

/-- Converts headers one after another, up to the first that fails. -/
def convertEach (tree : FileTree) (job : Job) : List Path → Except Report (List ConvertedFile)
  | [] => .ok []
  | input :: inputs =>
    match convertFile tree job.settings input with
    | .error error => .error (reportOf tree job.root input error)
    | .ok file =>
      match convertEach tree job inputs with
      | .error report => .error report
      | .ok files => .ok (file :: files)

/-- Converts the headers of a job. -/
def convertAll (tree : FileTree) (job : Job) : Except Report (List ConvertedFile) :=
  match convertEach tree job job.inputs with
  | .error report => .error report
  | .ok files => (rejectCollisions files).mapError .plain

/-- Reports the tags that are left in the text. -/
def warnAbout (root : Path) (files : List ConvertedFile) : Procedure Unit :=
  files.forM fun file =>
    file.diagnostics.forM fun diagnostic => do
      err ((← painted .yellow "warning:") ++ " " ++ relativePath file.input root ++ ":" ++
        toString diagnostic.line ++ ":" ++ toString diagnostic.column ++ " " ++
        diagnostic.message ++ "\n")

/-- Converts the headers of a job and reports the tags left in them. -/
def convertJob (job : Job) : Procedure (List ConvertedFile) := do
  match convertAll (← get).tree job with
  | .error report => throw report
  | .ok files =>
    warnAbout job.root files
    return files

/-! ## The command `convert` -/

/-- Shows the module interfaces. -/
def showOutputs (root : Path) (files : List ConvertedFile) : Procedure Unit := do
  out ("Dry run: would write " ++ toString files.length ++ " module interface(s):\n")
  files.forM fun file => do
    let title ← painted .bold ("==> " ++ relativePath file.output root)
    out ("\n" ++ title ++ "\n" ++ String.ofList file.text)

/-- Writes the module interfaces, and says which if more is to be said. -/
def saveOutputs (root : Path) (verbose : Bool) (files : List ConvertedFile) : Procedure Unit := do
  changeTree fun tree => writeOutputs tree files
  out ((← painted .green ("Converted " ++ toString files.length ++ " header(s).")) ++ "\n")
  if verbose then
    files.forM fun file =>
      out ("  " ++ relativePath file.input root ++ " -> " ++ relativePath file.output root ++ "\n")

/-- Converts headers. -/
def runConvert (path : Option Path) (verbose : Bool) (target : Target) (dryRun : Bool) :
    Procedure UInt32 := do
  let job ← prepare path target
  if job.inputs.isEmpty then
    out "No headers found.\n"
  else
    let files ← convertJob job
    if dryRun then showOutputs job.root files else saveOutputs job.root verbose files
  return 0

/-! ## The command `check` -/

/-- The lines of a text, each with the newline that ends it. -/
def linesWithEnds (text : Text) : List Text :=
  let parts := splitOn '\n' text
  parts.dropLast.map (· ++ ['\n']) ++ (parts.getLast?.filter (· ≠ [])).toList

/-- A line of a difference. A last line without newline gets one. -/
def diffLine (action : Block.Action) (line : Text) : Procedure String := do
  let body := String.ofList (if line.getLast? = some '\n' then line else line ++ ['\n'])
  match action with
  | .keep => return "   " ++ body
  | .delete => return "  " ++ (← painted .red ("-" ++ body))
  | .insert => return "  " ++ (← painted .green ("+" ++ body))

/-- Shows how a text differs from what is expected. -/
def showDiff (current expected : Text) : Procedure Unit :=
  (LineDiff.script (linesWithEnds current) (linesWithEnds expected)).forM fun block =>
    block.lines.forM fun line => do err (← diffLine block.action line)

/-- A stale module interface as a JSON object. -/
def staleObject (root : Path) (entry : StaleEntry) : String :=
  object [("input", quote (entry.input.relativeTo root).text),
    ("output", quote (entry.output.relativeTo root).text),
    ("missing", quoteFlag entry.isMissing)]

/-- The result of a check as a JSON object. -/
def checkObject (root : Path) (files : List ConvertedFile) (stale : List StaleEntry) : String :=
  object [("ok", quoteFlag stale.isEmpty), ("checked", toString files.length),
    ("diagnostics", toString (diagnosticCount files)),
    ("stale", array (stale.map (staleObject root)))]

/-- Shows a stale module interface, with the difference if that is asked for. -/
def showStale (root : Path) (diff : Bool) (entry : StaleEntry) : Procedure Unit := do
  let label ← painted .red "stale:"
  if entry.isMissing then
    err (label ++ " missing module interface `" ++ relativePath entry.output root ++ "` for `" ++
      relativePath entry.input root ++ "`\n")
  else
    err (label ++ " " ++ entry.error.message ++ "\n")
  match diff, entry.current with
  | true, some current => showDiff current entry.expected
  | _, _ => return

/-- Says how a check came out. -/
def showCheck (root : Path) (diff : Bool) (format : OutputFormat) (files : List ConvertedFile)
    (stale : List StaleEntry) : Procedure Unit := do
  match format with
  | .json => out (checkObject root files stale ++ "\n")
  | .text =>
    if stale.isEmpty then
      let passed := "Check passed: " ++ toString files.length ++ " module interface(s) up to date."
      out ((← painted .green passed) ++ "\n")
    else
      stale.forM (showStale root diff)
      err ("\n" ++ toString stale.length ++
        " module interface(s) out of date. Run `modtag convert` to regenerate.\n")

/-- Compares module interfaces with what their headers yield. -/
def runCheck (path : Option Path) (target : Target) (diff : Bool) (format : OutputFormat) :
    Procedure UInt32 := do
  let job ← prepare path target
  if job.inputs.isEmpty then
    out "No headers found.\n"
    return 0
  else
    let files ← convertJob job
    let stale := checkOutputs (← get).tree files
    showCheck job.root diff format files stale
    return if stale.isEmpty then 0 else 1

/-! ## The program -/

/-- What is left of a run of the program. -/
structure Run where
  tree : FileTree
  code : UInt32
  stdout : String
  stderr : String
  /-- Why the program failed, if a command was begun. -/
  failure : Option Report
deriving DecidableEq, Repr

/-- Carries out what the arguments say. -/
def perform (arguments : Arguments) : Procedure UInt32 :=
  match arguments.command with
  | some (.convert target dryRun) => runConvert arguments.path arguments.verbose target dryRun
  | some (.check target diff format) => runCheck arguments.path target diff format
  | none => do
    err "No subcommand specified. Run `modtag --help` for usage.\n"
    return 1

/-- Runs the program in a tree of files. `colourful` tells whether the surroundings allow colours. -/
def run (colourful : Bool) (tree : FileTree) (arguments : List Text) : Run :=
  match Arguments.parse arguments with
  | .error .help => ⟨tree, 0, "", "", none⟩
  | .error .version => ⟨tree, 0, "modtag_cli 0.3.0\n", "", none⟩
  | .error .rejected => ⟨tree, 2, "", "", none⟩
  | .ok arguments =>
    let session : Session := ⟨tree, colourful && !arguments.noColor, "", ""⟩
    match (perform arguments).run.run session with
    | (.ok code, session) => ⟨session.tree, code, session.stdout, session.stderr, none⟩
    | (.error report, session) => ⟨session.tree, 2, session.stdout, session.stderr, some report⟩

end TaggedHeader.CommandLine
