import TaggedHeader.Text

/-!
# Lines and columns

A position is shown as a line and a column, both counted from one, where columns count bytes. A line
table holds the offset at which every line starts, so that each position is located by a binary search.
-/

namespace TaggedHeader

/-- A place in a text: its line, its column and its byte offset. -/
structure Point where
  line : Nat
  column : Nat
  offset : Nat
deriving DecidableEq, Repr, Inhabited

/-- A point as it is shown to people. -/
def Point.render (point : Point) : String := toString point.line ++ ":" ++ toString point.column

/-- The byte offsets at which the lines of a text start, in increasing order. -/
structure LineTable where
  starts : Array Nat
deriving Repr

namespace LineTable

/-- The offsets right behind the newlines of a text that itself starts at `offset`. -/
def startsFrom (offset : Nat) : Text → List Nat
  | [] => []
  | c :: rest =>
    let next := offset + c.utf8Size
    if c = '\n' then next :: startsFrom next rest else startsFrom next rest

/-- The lines of a text: one starts at its beginning, and one behind every newline. -/
def ofText (text : Text) : LineTable := ⟨(0 :: startsFrom 0 text).toArray⟩

/-- Halves the candidates from `low` up to `high` for the last line that starts at or before `offset`. -/
def search (starts : Array Nat) (offset low high : Nat) : Nat :=
  if low + 1 < high then
    let middle := (low + high) / 2
    if starts.getD middle 0 ≤ offset then search starts offset middle high
    else search starts offset low middle
  else low
termination_by high - low

/-- The index of the line that holds the byte at `offset`. -/
def lineIndex (table : LineTable) (offset : Nat) : Nat :=
  search table.starts offset 0 table.starts.size

/-- The line and column of a byte offset. -/
def point (table : LineTable) (offset : Nat) : Point :=
  let index := table.lineIndex offset
  ⟨index + 1, offset - table.starts.getD index 0 + 1, offset⟩

end LineTable
end TaggedHeader
