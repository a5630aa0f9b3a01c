import TaggedHeader.Tag
import TaggedHeader.Tag.Lexeme

/-!
# Finding the tags of a text

The tags of a text come out in order and never overlap: a lexeme that starts before the end of the tag
before it belongs to that tag's payload. The lexer itself goes on right behind each opener, so text that
it swallows inside a payload stays swallowed.
-/

namespace TaggedHeader

open Text

/-- The tag that starts at a lexeme at `offset`, if the text behind completes it. An opener of a literal
block can still open a bracket tag whose payload starts with a bracket. -/
def Tag.ofStep? (offset : Nat) (step : Lexeme.Step) : Option Tag :=
  match step.lexeme with
  | none => none
  | some .literalOpen => literalTag? offset step.rest <|> bracketTag? offset ('[' :: step.rest)
  | some .tagOpen => bracketTag? offset step.rest
  | some (.inclusion name) => inclusionTag? ⟨offset, offset + size step.used⟩ name

/-- The tags that start at or behind byte `resume`, in a text that itself starts at `offset`. -/
def scanFrom (offset resume : Nat) : Text → List Tag
  | [] => []
  | c :: rest =>
    let step := Lexeme.read (c :: rest)
    match if resume ≤ offset then Tag.ofStep? offset step else none with
    | some tag => tag :: scanFrom (offset + size step.used) tag.span.stop step.rest
    | none => scanFrom (offset + size step.used) resume step.rest
termination_by text => text.length
decreasing_by all_goals exact Lexeme.length_rest_lt c rest

/-- The tags of a text in order. -/
def scanTags (text : Text) : List Tag := scanFrom 0 0 text

end TaggedHeader
