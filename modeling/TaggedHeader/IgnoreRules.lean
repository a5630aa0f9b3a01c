import TaggedHeader.Glob.Parser
import TaggedHeader.Path
import TaggedHeader.Text.Blank

/-!
# Ignore rules

A list of ignore rules has one pattern a line, and the last line that describes a path decides about it. A
line may take a path back in with an exclamation mark, hold for directories alone with a slash at its end, and
be anchored to the top of the tree by any other slash.
-/

namespace TaggedHeader

open Text

/-- A line of ignore rules, read. -/
structure IgnoreRule where
  glob : Glob
  /-- The line takes paths back in. -/
  readmits : Bool
  /-- The line says nothing about files. -/
  directoriesOnly : Bool
deriving Repr

/-- Ignore rules for the paths below a root. -/
structure IgnoreRules where
  root : Path
  rules : List IgnoreRule
deriving Repr

/-- Why a line is no ignore rule. -/
structure IgnoreRule.SyntaxError where
  /-- The line without blanks at its end. -/
  line : Text
  reason : Glob.SyntaxError
deriving DecidableEq, Repr

/-- The text that explains why a line is no ignore rule. -/
def IgnoreRule.SyntaxError.describe (error : IgnoreRule.SyntaxError) : String :=
  error.reason.describe error.line

namespace IgnoreRule

/-- Whether a text ends with another. -/
def endsWith (word text : Text) : Bool := word.isSuffixOf text

/-- Takes the signs off the beginning of a line: what is left, whether the line readmits, and whether it is
anchored. A backslash lets a line begin with one of the signs. -/
def readStart : Text → Text × Bool × Bool
  | '\\' :: '!' :: rest => ('!' :: rest, false, false)
  | '\\' :: '#' :: rest => ('#' :: rest, false, false)
  | '!' :: '/' :: rest => (rest, true, true)
  | '!' :: rest => (rest, true, false)
  | '/' :: rest => (rest, false, true)
  | line => (line, false, false)

/-- Takes a slash off the end of a pattern, along with a backslash before it: what is left, and whether there
was a slash. -/
def readEnd (pattern : Text) : Text × Bool :=
  match dropLastWord? ['/'] pattern with
  | none => (pattern, false)
  | some body => ((dropLastWord? ['\\'] body).getD body, true)

/-- The glob over whole paths that a pattern stands for. A pattern without slash describes a name anywhere, and
one that ends in two stars describes what is in a directory but not the directory. -/
def widen (anchored : Bool) (pattern : Text) : Text :=
  let starts := !anchored && !pattern.contains '/' &&
    !(pattern = ['*', '*'] || ['*', '*', '/'].isPrefixOf pattern)
  let anywhere := if starts then ['*', '*', '/'] ++ pattern else pattern
  if endsWith ['/', '*', '*'] anywhere then anywhere ++ ['/', '*'] else anywhere

/-- Reads a line of ignore rules; comments and blank lines hold no rule. -/
def parse? (line : Text) : Except SyntaxError (Option IgnoreRule) :=
  if line.head? = some '#' then .ok none
  else
    let line := if endsWith ['\\', ' '] line then line else trimEnd line
    if line = [] then .ok none
    else
      let (start, readmits, anchored) := readStart line
      let (pattern, directoriesOnly) := readEnd start
      match Glob.parse true true (widen anchored pattern) with
      | .ok glob => .ok (some { glob, readmits, directoriesOnly })
      | .error reason => .error ⟨line, reason⟩

/-- Whether a rule describes a path, given relative to the root of the rules. -/
def describes (rule : IgnoreRule) (path : Text) (isDirectory : Bool) : Bool :=
  (isDirectory || !rule.directoriesOnly) && rule.glob.isMatch path

end IgnoreRule

namespace IgnoreRules

/-- A path without a dot and a slash at its beginning. -/
def withoutDot (path : Text) : Text := (dropWord? ['.', '/'] path).getD path

/-- Rules for the paths below a root. -/
def below (root : Path) (rules : List IgnoreRule) : IgnoreRules := ⟨⟨withoutDot root.text⟩, rules⟩

/-- What a path says below the root of the rules. A bare name, and any path where the root is the working
directory, stays as it is. -/
def relative (rules : IgnoreRules) (path : Path) : Text :=
  let plain := withoutDot path.text
  if rules.root.sameAs (.ofString ".") || !plain.contains '/' then plain
  else
    let stripped := (dropWord? rules.root.text plain).getD plain
    (dropWord? ['/'] stripped).getD stripped

/-- Whether a path is ignored: the last rule that describes it does not readmit it. -/
def ignores (rules : IgnoreRules) (path : Path) (isDirectory : Bool) : Bool :=
  match rules.rules.reverse.find? (·.describes (rules.relative path) isDirectory) with
  | some rule => !rule.readmits
  | none => false

/-- Reads rules of which every line has to be right. -/
def parse (root : Path) (lines : List Text) :
    Except (Text × IgnoreRule.SyntaxError) IgnoreRules := do
  let rules ← lines.mapM fun line => (IgnoreRule.parse? line).mapError fun error => (line, error)
  return below root (rules.filterMap id)

/-- Reads rules and passes over the lines that are wrong. -/
def parseLenient (root : Path) (lines : List Text) : IgnoreRules :=
  below root (lines.filterMap fun line => ((IgnoreRule.parse? line).toOption).join)

end IgnoreRules
end TaggedHeader
