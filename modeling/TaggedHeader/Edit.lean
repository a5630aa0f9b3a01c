import TaggedHeader.Text

/-!
# Edits and the ranges they move

An edit replaces a range of a text. Everything recorded about the text is moved along with it, and two
kinds of range move differently: a *tag span* that the edit touches is given up, while a *region* shrinks
to what is left of it and never takes inserted text in.

`Edit.mapStart_mono`, `Edit.mapStop_mono` and `Edit.mapStop_le_mapStart` say that moving keeps the order
of positions, and that disjoint regions stay disjoint.
-/

namespace TaggedHeader

/-- The replacement of the bytes from `start` to `stop` by `inserted` other bytes. -/
structure Edit where
  start : Nat
  stop : Nat
  inserted : Nat
  ordered : start ≤ stop := by omega
deriving DecidableEq, Repr

namespace Edit

/-- The edit that replaces a range, unless the range is inverted. -/
def replacing (range : Span) (inserted : Nat) : Except RangeFault Edit :=
  if h : range.start ≤ range.stop then .ok ⟨range.start, range.stop, inserted, h⟩
  else .error .inverted

/-- By how many bytes the edit lengthens the text. -/
def delta (edit : Edit) : Int := edit.inserted - (edit.stop - edit.start : Nat)

/-- Moves a position that lies at or behind the end of the edit. -/
def shift (edit : Edit) (position : Nat) : Nat :=
  position - (edit.stop - edit.start) + edit.inserted

/-- Moves the span of a tag, or gives it up when the edit touched it.

An inverted span behind the edit can end before the deleted bytes do, which leaves no place to move
its end to. -/
def mapSpan (edit : Edit) (span : Span) : Except RangeFault (Option Span) :=
  if span.stop ≤ edit.start then .ok (some span)
  else if edit.stop ≤ span.start then
    if span.stop < edit.stop - edit.start then .error .inverted
    else .ok (some ⟨edit.shift span.start, edit.shift span.stop⟩)
  else .ok none

/-- Moves the start of a region; inserted text stays before it. -/
def mapStart (edit : Edit) (position : Nat) : Nat :=
  if edit.stop ≤ position then edit.shift position
  else if edit.start ≤ position then edit.start + edit.inserted
  else position

/-- Moves the end of a region; inserted text stays behind it. -/
def mapStop (edit : Edit) (position : Nat) : Nat :=
  if edit.stop < position then edit.shift position
  else if edit.start < position then edit.start
  else position

/-- Moves a region, which becomes empty when the edit swallowed it. -/
def mapRange (edit : Edit) (range : Span) : Span :=
  let start := edit.mapStart range.start
  ⟨start, max (edit.mapStop range.stop) start⟩

theorem mapStart_mono (edit : Edit) {a b : Nat} (h : a ≤ b) : edit.mapStart a ≤ edit.mapStart b := by
  have := edit.ordered
  grind [mapStart, shift]

theorem mapStop_mono (edit : Edit) {a b : Nat} (h : a ≤ b) : edit.mapStop a ≤ edit.mapStop b := by
  have := edit.ordered
  grind [mapStop, shift]

/-- The end of a region never moves past the start of what follows it. -/
theorem mapStop_le_mapStart (edit : Edit) {a b : Nat} (h : a ≤ b) :
    edit.mapStop a ≤ edit.mapStart b := by
  have := edit.ordered
  grind [mapStop, mapStart, shift]

end Edit
end TaggedHeader
