import TaggedHeader.Text

/-!
# Paths

A path is kept as it was written, since it is shown that way, while it is compared by its components:
repeated slashes and inner dots make no difference. Taking a prefix off a path keeps the spelling of what
is left.
-/

namespace TaggedHeader

open Text

/-- The name of a file or directory in its directory. -/
abbrev FileName := Text

/-- A path as it was written. -/
structure Path where
  text : Text
deriving DecidableEq, Repr, Inhabited

namespace Path

/-- A step of a path. -/
inductive Component where
  /-- The root of all absolute paths. -/
  | root
  /-- The dot that a path begins with. -/
  | current
  /-- The directory above, `..`. -/
  | parent
  /-- A file or directory by name. -/
  | normal (name : FileName)
deriving DecidableEq, Repr

/-- A path from a literal. -/
def ofString (text : String) : Path := ⟨text.toList⟩

/-- Whether a part between slashes says nothing. -/
def isIdle (part : Text) : Bool := part = [] || part = ['.']

/-- The steps that the parts between slashes stand for. -/
def stepsOf (parts : List Text) : List Component :=
  (parts.filter (!isIdle ·)).map fun part => if part = ['.', '.'] then .parent else .normal part

/-- Whether a path starts at the root. -/
def isAbsolute (path : Path) : Bool := path.text.head? = some '/'

/-- The steps of a path. -/
def components (path : Path) : List Component :=
  match splitOn '/' path.text with
  | [] => []
  | first :: parts =>
    if first = [] ∧ parts ≠ [] then .root :: stepsOf parts
    else if first = ['.'] then .current :: stepsOf parts
    else stepsOf (first :: parts)

/-- Whether a path ends in a slash or a dot, and so asks for a directory. -/
def asksForDirectory (path : Path) : Bool :=
  match (splitOn '/' path.text).getLast? with
  | some part => isIdle part
  | none => false

/-- The steps of a path with one more where it asks for a directory. -/
def requestedSteps (path : Path) : List Component :=
  if path.asksForDirectory then path.components ++ [.current] else path.components

/-- Whether two paths have the same steps. -/
def sameAs (left right : Path) : Bool := left.components = right.components

/-- The text of a step by itself. -/
def Component.text : Component → Text
  | .root => ['/']
  | .current => ['.']
  | .parent => ['.', '.']
  | .normal name => name

/-- The plain spelling of a list of steps. -/
def ofComponents : List Component → Path
  | .root :: steps => ⟨'/' :: joinWith '/' (steps.map Component.text)⟩
  | steps => ⟨joinWith '/' (steps.map Component.text)⟩

/-- The rank of a step among the kinds of steps. -/
def Component.rank : Component → Nat
  | .root => 0
  | .current => 1
  | .parent => 2
  | .normal _ => 3

/-- The order of steps: by kind, and names by their bytes. -/
def Component.precedes : Component → Component → Bool
  | .normal left, .normal right => Text.precedes left right
  | left, right => left.rank ≤ right.rank

/-- The order of lists of steps: step by step, a list before its extensions. -/
def stepsPrecede : List Component → List Component → Bool
  | [], _ => true
  | _ :: _, [] => false
  | a :: left, b :: right => if a = b then stepsPrecede left right else a.precedes b

/-- The order in which paths are listed. -/
def precedes (left right : Path) : Bool := stepsPrecede left.components right.components

/-- The path of something below a path. An absolute path stands for itself. -/
def join (base other : Path) : Path :=
  if other.isAbsolute then other
  else if base.text = [] || base.text.getLast? = some '/' then ⟨base.text ++ other.text⟩
  else ⟨base.text ++ '/' :: other.text⟩

/-- The name that a path ends in, if its last step is a name. -/
def fileName? (path : Path) : Option FileName :=
  match path.components.getLast? with
  | some (.normal name) => some name
  | _ => none

/-- A name up to its last dot, or all of it if there is no dot but the first character. -/
def stemOf (name : FileName) : FileName :=
  match (name.reverse.dropWhile (· != '.')).drop 1 with
  | [] => name
  | before => before.reverse

/-- The stem of the name that a path ends in. -/
def fileStem? (path : Path) : Option FileName := path.fileName?.map stemOf

/-- The path of the directory that holds what a path leads to, none for the root and the empty path. -/
def parent? (path : Path) : Option Path :=
  match path.components.getLast? with
  | none | some .root => none
  | some _ => some (ofComponents path.components.dropLast)

/-- Parts between slashes without those at the end that say nothing. -/
def trimPartsEnd (parts : List Text) : List Text := (parts.reverse.dropWhile isIdle).reverse

/-- The path without slashes and dots at its end that say nothing. -/
def trimEnd (path : Path) : Path :=
  match path.text with
  | '/' :: body => ⟨'/' :: joinWith '/' (trimPartsEnd (splitOn '/' body))⟩
  | text =>
    match splitOn '/' text with
    | ['.'] :: parts => ⟨joinWith '/' (['.'] :: trimPartsEnd parts)⟩
    | parts => ⟨joinWith '/' (trimPartsEnd parts)⟩

/-- Parts between slashes without the first `count` steps, and without what says nothing before the next
step. -/
def dropSteps : (count : Nat) → List Text → List Text
  | _, [] => []
  | count, part :: parts =>
    if isIdle part then dropSteps count parts
    else match count with
      | 0 => part :: parts
      | rest + 1 => dropSteps rest parts

/-- The part of a path behind a number of its first steps, as it was written. -/
def afterSteps (path : Path) (count : Nat) : Path :=
  match count, path.components with
  | 0, _ => path.trimEnd
  | count + 1, .root :: _ | count + 1, .current :: _ =>
    ⟨joinWith '/' (trimPartsEnd (dropSteps count ((splitOn '/' path.text).drop 1)))⟩
  | count, _ => ⟨joinWith '/' (trimPartsEnd (dropSteps count (splitOn '/' path.text)))⟩

/-- What a path says below a prefix of it. -/
def stripPrefix? (path base : Path) : Option Path :=
  if base.components.isPrefixOf path.components then some (path.afterSteps base.components.length)
  else none

/-- How a path is shown to someone who knows the root. -/
def relativeTo (path root : Path) : Path := (path.stripPrefix? root).getD path

end Path
end TaggedHeader
