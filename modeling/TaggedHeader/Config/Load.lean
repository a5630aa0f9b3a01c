import TaggedHeader.Config
import TaggedHeader.ProjectError

/-!
# Configuration files

A directory with a configuration file is a project. Its configuration is read from the first file that exists among
those that may hold it.
-/

namespace TaggedHeader

/-- Where the configuration of a project in a directory may be. -/
def configPaths (directory : Path) : List Path := configCandidates.map directory.join

/-- The configuration file of a project. -/
def configPath? (tree : FileTree) (root : Path) : Option Path := (configPaths root).find? tree.isFile

/-- Whether a directory has a configuration file, and so is a project of its own. -/
def FileTree.hasConfig (tree : FileTree) (directory : Path) : Bool :=
  (configPaths directory).any tree.isFile

/-- The configuration of a project, none if it has no configuration file. -/
def loadConfig (tree : FileTree) (root : Path) : Except ProjectError (Option Config) :=
  match configPath? tree root with
  | none => .ok none
  | some path =>
    match tree.readText path with
    | .error error => .error (.file error)
    | .ok text =>
      match Config.parse? text with
      | some config => .ok (some config)
      | none => .error .configSyntax

end TaggedHeader
