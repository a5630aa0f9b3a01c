import TaggedHeader.Path
import TaggedHeader.Text.Utf8

/-!
# A tree of files

Files, directories and symbolic links, each at its location: the names that lead to it from the root without
passing a link. A path is resolved step by step and may follow a limited number of links. Operations that change
the tree return it even when they fail, since a part of the work may be done by then.

The limits of the model: a name is a Unicode text, so no name holds other bytes. There are no permissions, so whatever
stands at a location can be read, no special files, and no hard links, so a file stands at one location only. A write
fails only before the file is opened, and otherwise all of its content is written. The names in a directory are read in
the order in which they were made. Nothing but the program changes the tree while it runs.
-/

namespace TaggedHeader

open Text

/-- What a file holds. -/
inductive Content where
  /-- A text in UTF-8. -/
  | text (text : Text)
  /-- Bytes that are no text. -/
  | binary (bytes : List UInt8)
deriving DecidableEq, Repr

/-- What a file with the given bytes holds. -/
def Content.ofBytes (bytes : List UInt8) : Content :=
  match Text.ofBytes? bytes with
  | some decoded => .text decoded
  | none => .binary bytes

/-- What stands at a location. -/
inductive FileEntry where
  | file (content : Content)
  | directory
  | link (target : Path)
deriving DecidableEq, Repr

/-- The names that lead to something from the root. -/
abbrev Location := List FileName

/-- Why an operation on files fails. -/
inductive FileError where
  | notFound
  | alreadyExists
  | notDirectory
  | isDirectory
  | tooManyLinks
  /-- A file that is to be read as text is none. -/
  | invalidText
deriving DecidableEq, Repr

/-- The words that explain a failure. -/
def FileError.message : FileError → String
  | .notFound => "No such file or directory (os error 2)"
  | .alreadyExists => "File exists (os error 17)"
  | .notDirectory => "Not a directory (os error 20)"
  | .isDirectory => "Is a directory (os error 21)"
  | .tooManyLinks => "Too many levels of symbolic links (os error 40)"
  | .invalidText => "stream did not contain valid UTF-8"

/-- Files and directories below a root, which is a directory itself, seen from a working directory. -/
structure FileTree where
  entries : List (Location × FileEntry)
  workingDirectory : Location
deriving DecidableEq, Repr

namespace FileTree

/-- A tree that holds the working directory alone. -/
def empty (workingDirectory : Location) : FileTree :=
  let above := (List.range workingDirectory.length).map fun count => workingDirectory.take (count + 1)
  ⟨above.map (·, .directory), workingDirectory⟩

/-! ## Entries by location -/

/-- What stands at a location. -/
def entry? (tree : FileTree) : Location → Option FileEntry
  | [] => some .directory
  | location => (tree.entries.find? (·.1 == location)).map Prod.snd

/-- The names in a directory, in the order they were made. -/
def namesIn (tree : FileTree) (directory : Location) : List FileName :=
  tree.entries.filterMap fun (location, _) =>
    if location.dropLast = directory then location.getLast? else none

/-- Puts an entry at a location, in place of what stands there. -/
def setEntry (tree : FileTree) (location : Location) (entry : FileEntry) : FileTree :=
  if tree.entries.any (·.1 == location) then
    { tree with entries := tree.entries.map fun old =>
        if old.1 == location then (location, entry) else old }
  else { tree with entries := tree.entries ++ [(location, entry)] }

/-- Takes away what stands at a location, with everything below it. -/
def removeEntry (tree : FileTree) (location : Location) : FileTree :=
  { tree with entries := tree.entries.filter fun entry => !location.isPrefixOf entry.1 }

/-! ## Resolving paths -/

/-- How many links are followed on the way to a location. -/
def maxLinks : Nat := 40

/-- Goes step by step from a location. All steps but the last have to lead to something. A link is followed by
`follow`, unless it is at the end and `keepLast`. -/
def walkWith (tree : FileTree) (keepLast : Bool)
    (follow : Location → List Path.Component → Except FileError Location) :
    (here : Location) → List Path.Component → Except FileError Location
  | here, [] => .ok here
  | _, .root :: steps => tree.walkWith keepLast follow [] steps
  | here, .current :: steps => tree.walkWith keepLast follow here steps
  | here, .parent :: steps => tree.walkWith keepLast follow here.dropLast steps
  | here, .normal name :: steps =>
    let location := here ++ [name]
    match tree.entry? location with
    | some .directory => tree.walkWith keepLast follow location steps
    | some (.file _) => if steps = [] then .ok location else .error .notDirectory
    | none => if steps = [] then .ok location else .error .notFound
    | some (.link target) =>
      if steps = [] && keepLast then .ok location else follow here (target.requestedSteps ++ steps)

/-- Where steps lead to from a location, if no more than `links` links are followed. -/
def walk (tree : FileTree) (keepLast : Bool) :
    (links : Nat) → (here : Location) → List Path.Component → Except FileError Location
  | 0 => tree.walkWith keepLast fun _ _ => .error .tooManyLinks
  | links + 1 => tree.walkWith keepLast (tree.walk keepLast links)

/-- Where a path leads to, links followed. -/
def locate (tree : FileTree) (path : Path) : Except FileError Location :=
  if path.text = [] then .error .notFound
  else tree.walk false maxLinks tree.workingDirectory path.requestedSteps

/-- What a path leads to, with its location. -/
def lookup (tree : FileTree) (path : Path) : Except FileError (Location × FileEntry) := do
  let location ← tree.locate path
  match tree.entry? location with
  | some entry => return (location, entry)
  | none => throw .notFound

/-- Whether a path leads to a file. -/
def isFile (tree : FileTree) (path : Path) : Bool :=
  match tree.lookup path with
  | .ok (_, .file _) => true
  | _ => false

/-- Whether a path leads to a directory. -/
def isDirectory (tree : FileTree) (path : Path) : Bool :=
  match tree.lookup path with
  | .ok (_, .directory) => true
  | _ => false

/-! ## Reading -/

/-- The content of the file that a path leads to. -/
def read (tree : FileTree) (path : Path) : Except FileError Content := do
  match ← tree.lookup path with
  | (_, .file content) => return content
  | (_, .directory) => throw .isDirectory
  | (_, .link _) => throw .tooManyLinks

/-- The text of the file that a path leads to. -/
def readText (tree : FileTree) (path : Path) : Except FileError Text := do
  match ← tree.read path with
  | .text text => return text
  | .binary _ => throw .invalidText

/-! ## Writing -/

/-- The tree after an operation, and what stopped the operation, if anything did. -/
abbrev Outcome := FileTree × Option FileError

/-- The location of the directory that steps lead to. -/
def locateDirectory (tree : FileTree) (steps : List Path.Component) : Except FileError Location := do
  let location ← tree.walk false maxLinks tree.workingDirectory (steps ++ [.current])
  match tree.entry? location with
  | some .directory => return location
  | some _ => throw .notDirectory
  | none => throw .notFound

/-- Makes the directory that steps lead to, in a directory that exists. -/
def makeDirectory (tree : FileTree) (steps : List Path.Component) : Except FileError FileTree := do
  let parent ← tree.locateDirectory steps.dropLast
  match steps.getLast? with
  | some (.normal name) =>
    match tree.entry? (parent ++ [name]) with
    | some _ => throw .alreadyExists
    | none => return tree.setEntry (parent ++ [name]) .directory
  | _ => throw .alreadyExists

/-- Makes a directory and those on the way to it, as far as they do not exist. -/
def makeDirectories (tree : FileTree) (steps : List Path.Component) : Outcome :=
  if steps = [] then (tree, none)
  else match tree.makeDirectory steps with
    | .ok made => (made, none)
    | .error .notFound =>
      match tree.makeDirectories steps.dropLast with
      | (above, some error) => (above, some error)
      | (above, none) =>
        match above.makeDirectory steps with
        | .ok made => (made, none)
        | .error error => (above, if above.isDirectory (.ofComponents steps) then none else some error)
    | .error error => (tree, if tree.isDirectory (.ofComponents steps) then none else some error)
termination_by steps.length
decreasing_by
  have := List.length_pos_iff.2 ‹_›
  simp only [List.length_dropLast]
  omega

/-- Writes a file, which is made where it does not exist. -/
def write (tree : FileTree) (path : Path) (content : Content) : Outcome :=
  let result : Except FileError FileTree := do
    if path.text = [] then throw .notFound
    if path.asksForDirectory then
      let _ ← tree.locateDirectory path.components.dropLast
      throw .isDirectory
    let location ← tree.locate path
    match tree.entry? location with
    | some .directory => throw .isDirectory
    | _ => return tree.setEntry location (.file content)
  match result with
  | .ok written => (written, none)
  | .error error => (tree, some error)

/-- Makes a link, where nothing exists. -/
def makeLink (tree : FileTree) (path target : Path) : Outcome :=
  match tree.walk true maxLinks tree.workingDirectory path.components with
  | .error error => (tree, some error)
  | .ok location =>
    match tree.entry? location with
    | some _ => (tree, some .alreadyExists)
    | none => (tree.setEntry location (.link target), none)

/-- Takes away what a path leads to, links not followed, with everything below it. -/
def remove (tree : FileTree) (path : Path) : Outcome :=
  match tree.walk true maxLinks tree.workingDirectory path.components with
  | .error error => (tree, some error)
  | .ok location =>
    match tree.entry? location with
    | some _ => (tree.removeEntry location, none)
    | none => (tree, some .notFound)

/-- The regular files below the working directory, by their paths. -/
def files (tree : FileTree) : List (Path × Content) :=
  let below := tree.entries.filterMap fun (location, entry) =>
    match entry with
    | .file content =>
      if tree.workingDirectory.isPrefixOf location then
        let names := location.drop tree.workingDirectory.length
        some ((⟨joinWith '/' names⟩ : Path), content)
      else none
    | _ => none
  below.mergeSort fun left right => Text.precedes left.1.text right.1.text

end FileTree
end TaggedHeader
