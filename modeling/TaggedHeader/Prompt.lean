import TaggedHeader.Text.Blank
import TaggedHeader.Text.WordChar

/-!
# The prompt comment

A header that carries tags opens with a comment of three lines that says so. Its wording is fixed up to
blanks and the name of the tool, so it is described by a pattern: fixed words, and runs of characters of
a class. A run takes as many characters as it can and gives characters back only when what follows does
not fit otherwise; among all places where the pattern fits, the first one is taken.
-/

namespace TaggedHeader

open Text

/-- A part of a pattern. -/
inductive Pattern.Piece where
  /-- The characters of a word, exactly. -/
  | word (text : Text)
  /-- Any number of blanks. -/
  | blanks
  /-- A non-empty tool name of word characters, dots and hyphens. -/
  | name

/-- A text described piece by piece. -/
abbrev Pattern := List Pattern.Piece

namespace Pattern

/-- The characters of a tool name. -/
def isNameChar (c : Char) : Bool := isWordChar c || c == '.' || c == '-'

/-- Tries the ways to leave a run of characters of a class, the longest run first. The run is `taken`
characters long already and may end once it has `least`. -/
def afterRun {α : Type} (isMember : Char → Bool) (least : Nat) (continue? : Text → Option α)
    (taken : Nat) : Text → Option α
  | [] => if least ≤ taken then continue? [] else none
  | c :: rest =>
    let longer := if isMember c then afterRun isMember least continue? (taken + 1) rest else none
    match longer with
    | some result => some result
    | none => if least ≤ taken then continue? (c :: rest) else none

/-- What is left of a text behind the pattern, if the text starts with it. -/
def rest? : Pattern → Text → Option Text
  | [], text => some text
  | .word word :: more, text => (dropWord? word text).bind (rest? more)
  | .blanks :: more, text => afterRun isBlank 0 (rest? more) 0 text
  | .name :: more, text => afterRun isNameChar 1 (rest? more) 0 text

/-- The first place where the pattern fits, as the parts of the text before, in and behind it. -/
def find? (pattern : Pattern) : Text → Option (Text × Text × Text)
  | [] => (rest? pattern []).map fun _ => ([], [], [])
  | c :: tail =>
    match rest? pattern (c :: tail) with
    | some rest => some ([], (c :: tail).take ((c :: tail).length - rest.length), rest)
    | none => (find? pattern tail).map fun (before, found, rest) => (c :: before, found, rest)

end Pattern

/-- The comment that marks a header as carrying tags, with the blanks around it. -/
def promptPattern : Pattern :=
  [.blanks, .word "//".toList, .blanks,
    .word "This file uses metatags to convert headers to module-interfaces using ".toList,
    .name, .word ".".toList, .blanks, .word "\n".toList,
    .blanks, .word "//".toList, .blanks,
    .word "Any block comment formatted as: /*[".toList, .blanks,
    .word "]*/ is a metatag and other code may depend on it.".toList, .blanks, .word "\n".toList,
    .blanks, .word "//".toList, .blanks,
    .word "Proceed with caution when modifying such comments.".toList, .blanks]

/-- The bytes of the first prompt comment of a text. -/
def findPrompt? (text : Text) : Option Span :=
  (promptPattern.find? text).map fun (before, found, _) => ⟨size before, size before + size found⟩

end TaggedHeader
