import TaggedHeader.CommandLine.Command

/-!
# The executable

The program loads the files that its arguments can reach, runs as a function on them, and writes back what that
function changed. Everything that decides something is in `CommandLine.run`.
-/

namespace TaggedHeader.Executable

/-- The names that lead to a real path. -/
def locationOf (path : String) : Location :=
  (Path.ofString path).components.filterMap fun step =>
    match step with
    | .normal name => some name
    | _ => none

/-- The real path of a location. -/
def pathTo (location : Location) : String :=
  String.ofList (Path.ofComponents (.root :: location.map .normal)).text

/-- Adds the directories on the way to a location. -/
def addAbove (tree : FileTree) (location : Location) : FileTree :=
  (List.range location.length).foldl
    (fun tree count =>
      let above := location.take count
      if (tree.entry? above).isSome then tree else tree.setEntry above .directory)
    tree

/-- Loads what stands at a location, links as links. -/
partial def load (tree : FileTree) (location : Location) : IO FileTree := do
  let path := pathTo location
  let real ← IO.FS.realPath path
  if real.toString != path then
    return tree.setEntry location (.link (.ofString real.toString))
  else if ← real.isDir then
    let mut loaded := if location = [] then tree else tree.setEntry location .directory
    for entry in ← real.readDir do
      loaded ← load loaded (location ++ [entry.fileName.toList])
    return loaded
  else
    let bytes ← IO.FS.readBinFile path
    return tree.setEntry location (.file (.ofBytes bytes.toList))

/-- Loads what stands at a location with the directories above it, unless there is nothing. -/
def loadWhole (tree : FileTree) (location : Location) : IO FileTree := do
  if (tree.entry? location).isSome && location != [] then return tree
  try load (addAbove tree location) location
  catch _ => return tree

/-- The paths that the arguments name. -/
def namedPaths (arguments : List Text) : List Path :=
  match CommandLine.Arguments.parse arguments with
  | .error _ => []
  | .ok arguments =>
    let target : List Path := match arguments.command with
      | some (.convert target _) => target.inputs ++ target.destination.toList
      | some (.check target _ _) => target.inputs ++ target.destination.toList
      | none => []
    arguments.path.toList ++ target

/-- Loads the working directory and what the arguments name. -/
def loadAll (arguments : List Text) : IO FileTree := do
  let here ← IO.FS.realPath "."
  let location := locationOf here.toString
  let mut tree ← loadWhole ⟨[], location⟩ location
  for path in namedPaths arguments do
    try
      let real ← IO.FS.realPath (String.ofList path.text)
      tree ← loadWhole tree (locationOf real.toString)
    catch _ => pure ()
  return tree

/-- Writes the entries of a tree that another one has not. -/
def save (before after : FileTree) : IO Unit := do
  for (location, entry) in after.entries do
    if before.entry? location != some entry then
      match entry with
      | .directory => IO.FS.createDirAll (pathTo location)
      | .file (.text text) => IO.FS.writeFile (pathTo location) (String.ofList text)
      | .file (.binary bytes) => IO.FS.writeBinFile (pathTo location) ⟨bytes.toArray⟩
      | .link _ => pure ()

/-- The lines that report a failure. -/
def failureLines (report : CommandLine.Report) : String :=
  let place := match report.source with
    | some (path, _) => " in " ++ CommandLine.shownPath path
    | none => ""
  let help := match report.error.help? with
    | some help => "help: " ++ help ++ "\n"
    | none => ""
  report.error.code ++ place ++ ": " ++ report.error.message ++ "\n" ++ help

end TaggedHeader.Executable

open TaggedHeader Executable in
/-- Runs the program in the working directory. -/
def main (arguments : List String) : IO UInt32 := do
  let words := arguments.map String.toList
  let colourful := (← IO.getEnv "NO_COLOR").isNone && (← IO.getEnv "FORCE_COLOR").isSome
  let tree ← loadAll words
  let run := CommandLine.run colourful tree words
  save tree run.tree
  IO.print run.stdout
  IO.eprint run.stderr
  if let some report := run.failure then IO.eprint (failureLines report)
  return run.code
