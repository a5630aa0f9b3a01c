import TaggedHeader.Text

/-!
# Line endings

Headers are converted with newlines as their only line ends. A carriage return with the newline behind
it is one line end, and a carriage return on its own is one as well.
-/

namespace TaggedHeader.Text

/-- Writes every pair of a carriage return and a newline as the newline alone. -/
def collapsePairs : Text → Text
  | [] => []
  | '\r' :: '\n' :: rest => '\n' :: collapsePairs rest
  | c :: rest => c :: collapsePairs rest

/-- Writes every line end as a newline; a text without carriage returns is left alone. -/
def normalizeLineEndings (text : Text) : Text :=
  if text.contains '\r' then
    (collapsePairs text).map fun c => if c = '\r' then '\n' else c
  else text

end TaggedHeader.Text
