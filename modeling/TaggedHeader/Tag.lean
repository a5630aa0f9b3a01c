import TaggedHeader.Directive.Parser

/-!
# Tags

A tag is a directive at a place in a text: a bracket tag `/*[payload]*/`, a literal block
`/*[[content]]*/` or an inclusion `#include <name>`. The span of a tag follows the edits of the text,
its origin never moves.
-/

namespace TaggedHeader

open Text

/-- A directive found in a text. -/
structure Tag where
  directive : Directive
  /-- The bytes of the whole tag in the text as it is now. -/
  span : Span
  /-- Where the tag started in the text before any edit. -/
  origin : Nat
  /-- What stands between the brackets, trimmed; the header's name for an inclusion. -/
  payload : Text
deriving DecidableEq, Repr

namespace Tag

/-- The opener of a bracket tag. -/
def bracketOpen : Text := ['/', '*', '[']

/-- The opener of a literal block. -/
def literalOpen : Text := ['/', '*', '[', '[']

/-- The end of a comment. -/
def commentClose : Text := ['*', '/']

/-- The bracket that ends a bracket tag, before the end of its comment. -/
def bracketEnd : Text := [']']

/-- The brackets that end a literal block, before the end of its comment. -/
def literalEnd : Text := [']', ']']

/-- What stands before and behind the first end of a comment. -/
def splitClose : Text → Option (Text × Text)
  | [] => none
  | '*' :: '/' :: rest => some ([], rest)
  | c :: rest => (splitClose rest).map fun (before, after) => (c :: before, after)

/-- The bracket tag at `offset`, given the text behind its opener. The comment has to end in the closing
bracket, which the opener does not share. -/
def bracketTag? (offset : Nat) (body : Text) : Option Tag := do
  let (comment, _) ← splitClose body
  let content ← dropLastWord? bracketEnd comment
  let payload := trim content
  return { directive := .parse payload
           span := ⟨offset, offset + size bracketOpen + size comment + size commentClose⟩
           origin := offset
           payload }

/-- The literal block at `offset`, given the text behind its opener. -/
def literalTag? (offset : Nat) (body : Text) : Option Tag := do
  let (comment, _) ← splitClose body
  let content ← dropLastWord? literalEnd comment
  return { directive := .literal
           span := ⟨offset, offset + size literalOpen + size comment + size commentClose⟩
           origin := offset
           payload := trim content }

/-- The inclusion over a span, if what its brackets hold names a header. -/
def inclusionTag? (span : Span) (name : Text) : Option Tag :=
  (HeaderName.parse? name).map fun header =>
    { directive := .includeHeader header, span, origin := span.start, payload := header.text }

/-- The bytes between the delimiters of a literal block. -/
def literalInterior (tag : Tag) : Except RangeFault Span :=
  let closing := size literalEnd + size commentClose
  if tag.span.stop < closing then .error .inverted
  else .ok ⟨tag.span.start + size literalOpen, tag.span.stop - closing⟩

end Tag
end TaggedHeader
