import TaggedHeader.Config.Load
import TaggedHeader.IgnoreRules

/-!
# Finding the headers of a project

The headers of a project are the files below its root that its patterns describe and no rule ignores. The walk
follows links to directories and enters no directory twice, so it ends on every tree; the headers are listed in
the order of their paths, whatever the order in which directories are read.

`findHeaders` takes the patterns as predicates, and `discoverHeaders` builds these from a project's options.
-/

namespace TaggedHeader

open Text

/-- Which files below a root are headers of a project. -/
structure HeaderFilter where
  /-- Whether the patterns describe a file, by its path relative to the root. -/
  includes : Path → Bool
  /-- Whether a rule ignores a file, or, if the flag is set, a directory. -/
  ignores : Path → Bool → Bool

/-- Whether a name is passed over in every project: hidden files, installed packages and build products. -/
def isPassedOver (name : FileName) : Bool :=
  name.head? = some '.' || name = "node_modules".toList || name = "target".toList

/-- What a walk has met so far. -/
structure Walk where
  /-- The headers found, the latest first. -/
  headers : List Path
  /-- The directories entered. -/
  visited : List Location
deriving DecidableEq, Repr

/-- Walks through a directory and at most `depth` levels of directories below it. A directory with a
configuration, other than those right below the root, is another project and not entered. -/
def walkDirectory (tree : FileTree) (filter : HeaderFilter) (root : Path) :
    (depth : Nat) → (isRoot : Bool) → (directory : Path) → Walk → Walk
  | 0, _, _, walk => walk
  | depth + 1, isRoot, directory, walk =>
    match tree.lookup directory with
    | .ok (location, .directory) =>
      if location ∈ walk.visited then walk
      else
        (tree.namesIn location).foldl
          (fun walk name =>
            let path := directory.join ⟨name⟩
            let isDirectory := tree.isDirectory path
            if isPassedOver name || filter.ignores path isDirectory then walk
            else if isDirectory then
              if !isRoot && tree.hasConfig path then walk
              else walkDirectory tree filter root depth false path walk
            else if (path.stripPrefix? root).any filter.includes then
              { walk with headers := path :: walk.headers }
            else walk)
          { walk with visited := location :: walk.visited }
    | _ => walk

/-- A bound on how deep a walk can get: every level enters another directory. -/
def FileTree.depthBound (tree : FileTree) : Nat := tree.entries.length + 1

/-- The headers below a root, in the order of their paths. -/
def findHeaders (tree : FileTree) (filter : HeaderFilter) (root : Path) : List Path :=
  (walkDirectory tree filter root tree.depthBound true root ⟨[], []⟩).headers.mergeSort Path.precedes

/-- Which headers to look for. -/
structure ScanOptions where
  /-- The patterns that describe headers. -/
  includes : List Glob
  /-- The lines of ignore rules, not read yet. -/
  excludes : List Text
  /-- Whether the ignore rules of the root's own file do not count. -/
  disableGitignore : Bool

namespace ScanOptions

/-- Reads the patterns that describe headers. -/
def readPatterns (patterns : List Text) : Except ProjectError (List Glob) :=
  patterns.mapM fun pattern =>
    (Glob.parse false false pattern).mapError fun error =>
      .invalidPattern pattern (error.describe pattern)

/-- The options that a configuration stands for. -/
def ofConfig (config : Config) : Except ProjectError ScanOptions := do
  let includes ← readPatterns config.includePatterns
  return ⟨includes, config.excludes, config.disableGitignore⟩

end ScanOptions

/-- The lines of a text as files have them: a carriage return before a newline belongs to the line end, and
behind the last newline there is no empty line. -/
def linesOf (text : Text) : List Text :=
  let parts := splitOn '\n' text
  let complete := parts.dropLast.map fun line => (dropLastWord? ['\r'] line).getD line
  complete ++ (parts.getLast?.filter (· ≠ [])).toList

/-- The lines of bytes as far as they are text. -/
def linesOfBytes (bytes : List UInt8) : List Text :=
  match bytes.span (· != 0x0A) with
  | (line, []) => ((ofBytes? line).filter (· ≠ [])).toList
  | (line, _ :: rest) =>
    match ofBytes? line with
    | none => []
    | some text =>
      if rest.length < bytes.length then
        (dropLastWord? ['\r'] text).getD text :: linesOfBytes rest
      else []
termination_by bytes.length

/-- The lines of a file of ignore rules, without byte order marks before the first one. -/
def ruleLines (content : Content) : List Text :=
  let lines := match content with
    | .text text => linesOf text
    | .binary bytes => linesOfBytes bytes
  match lines with
  | [] => []
  | first :: others => first.dropWhile (· == '\uFEFF') :: others

/-- The ignore rules that the root's own file holds. -/
def gitignoreRules (tree : FileTree) (root : Path) : IgnoreRules :=
  match tree.read (root.join (.ofString ".gitignore")) with
  | .ok content => .parseLenient root (ruleLines content)
  | .error _ => .below root []

/-- The headers of a project. -/
def discoverHeaders (tree : FileTree) (root : Path) (options : ScanOptions) :
    Except ProjectError (List Path) := do
  let gitignore := if options.disableGitignore then .below root [] else gitignoreRules tree root
  let excluded ← (IgnoreRules.parse root options.excludes).mapError fun (line, error) =>
    .invalidPattern line error.describe
  let filter : HeaderFilter :=
    { includes := fun path => options.includes.any (·.isMatch path.text)
      ignores := fun path isDirectory =>
        gitignore.ignores path isDirectory || excluded.ignores path isDirectory }
  return findHeaders tree filter root

end TaggedHeader
