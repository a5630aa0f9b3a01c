import TaggedHeader.Text

/-!
# Names of modules and headers

A module is named by letters, digits and underscores with dots and colons between them; a header by
what may stand between angle brackets in an inclusion. Both kinds of name carry the proof that they
are well formed, so a name printed into a generated file can always be read back.
-/

namespace TaggedHeader

/-- Letters, digits and the underscore, of ASCII alone. -/
def isIdentifierChar (c : Char) : Bool := c.isAlphanum || c == '_'

/-- The characters inside a module name: those of identifiers, and the two separators. -/
def isModuleNameChar (c : Char) : Bool := isIdentifierChar c || c == '.' || c == ':'

/-- Whether a text is a module name: it starts and ends with an identifier character. -/
def isModuleName (text : Text) : Bool :=
  text.head?.any isIdentifierChar && text.getLast?.any isIdentifierChar &&
    text.all isModuleNameChar

/-- A module name such as `ams.game.Camera` or `ams.game:internal`. -/
structure ModuleName where
  text : Text
  valid : isModuleName text = true
deriving DecidableEq, Repr

namespace ModuleName

/-- Reads a module name. -/
def parse? (text : Text) : Option ModuleName :=
  if h : isModuleName text = true then some ⟨text, h⟩ else none

theorem parse?_text (name : ModuleName) : parse? name.text = some name := by
  simp [parse?, name.valid]

theorem text_eq_of_parse? {text : Text} {name : ModuleName} (h : parse? text = some name) :
    name.text = text := by
  unfold parse? at h
  split at h
  · cases h; rfl
  · cases h

end ModuleName

/-- The characters of a header name before its extension. -/
def isHeaderStemChar (c : Char) : Bool := isIdentifierChar c || c == '/'

/-- Whether a text is a header name up to its extension: it starts with a letter or an underscore and
does not end with a slash. -/
def isHeaderStem (text : Text) : Bool :=
  text.head?.any (fun c => c.isAlpha || c == '_') && text.getLast?.any isIdentifierChar &&
    text.all isHeaderStemChar

/-- Whether a text is the extension of a header: one to four letters. -/
def isHeaderExtension (text : Text) : Bool :=
  1 ≤ text.length && text.length ≤ 4 && text.all Char.isAlpha

/-- The parts of a text before and behind its last dot, the second none where there is no dot. -/
def splitLastDot (text : Text) : Text × Option Text :=
  if text.contains '.' then
    ((text.reverse.dropWhile (· != '.')).drop 1 |>.reverse,
      some (text.reverse.takeWhile (· != '.')).reverse)
  else (text, none)

/-- Whether a text is a header name: a stem, and optionally a dot with an extension. -/
def isHeaderName (text : Text) : Bool :=
  match splitLastDot text with
  | (stem, none) => isHeaderStem stem
  | (stem, some extension) => isHeaderStem stem && isHeaderExtension extension

/-- A header name as written between angle brackets, such as `vector` or `ams/spatial/Matrix.hpp`. -/
structure HeaderName where
  text : Text
  valid : isHeaderName text = true
deriving DecidableEq, Repr

namespace HeaderName

/-- Reads a header name. -/
def parse? (text : Text) : Option HeaderName :=
  if h : isHeaderName text = true then some ⟨text, h⟩ else none

theorem parse?_text (name : HeaderName) : parse? name.text = some name := by
  simp [parse?, name.valid]

theorem text_eq_of_parse? {text : Text} {name : HeaderName} (h : parse? text = some name) :
    name.text = text := by
  unfold parse? at h
  split at h
  · cases h; rfl
  · cases h

end HeaderName

/-- What an import names. -/
inductive ImportTarget where
  /-- A module, as in `import ams.spatial;`. -/
  | module (name : ModuleName)
  /-- A header, as in `import <vector>;`. -/
  | header (name : HeaderName)
  /-- A module in angle brackets, as in `import <ams.spatial:Vec>;`. -/
  | bracketedModule (name : ModuleName)
deriving DecidableEq, Repr

namespace ImportTarget

/-- Reads an import target; in angle brackets a header is preferred to a module. -/
def parse? : Text → Option ImportTarget
  | '<' :: rest =>
    (Text.dropLastWord? ['>'] rest).bind fun inner =>
      match HeaderName.parse? inner with
      | some name => some (.header name)
      | none => (ModuleName.parse? inner).map .bracketedModule
  | text => (ModuleName.parse? text).map .module

/-- The name alone, without brackets. -/
def name : ImportTarget → Text
  | .module name => name.text
  | .header name => name.text
  | .bracketedModule name => name.text

/-- The target as it is written behind `import`. -/
def render : ImportTarget → Text
  | .module name => name.text
  | .header name => '<' :: name.text ++ ['>']
  | .bracketedModule name => '<' :: name.text ++ ['>']

end ImportTarget
end TaggedHeader
