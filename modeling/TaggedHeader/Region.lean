import TaggedHeader.Text

/-!
# Regions

A region is a part of a header that is treated as a whole: removed with its content, or kept exactly as
it is and protected from every pass. Its span covers the markers around it and any newline that a
marker absorbs; its interior is the content that stays when the markers are taken away.
-/

namespace TaggedHeader

/-- How a region treats its content. -/
inductive RegionKind where
  /-- The content is deleted along with the markers `exclude begin` and `exclude end`. -/
  | removed
  /-- The content between `ignore begin` and `ignore end` is kept and protected. -/
  | preserved
  /-- The content of `/*[[ ... ]]*/` is kept and protected. -/
  | literal
deriving DecidableEq, Repr

namespace RegionKind

/-- Whether the passes leave the content of such a region alone. -/
def isProtected : RegionKind → Bool
  | .removed => false
  | .preserved | .literal => true

/-- The word that names the kind in messages. -/
def word : RegionKind → String
  | .removed => "exclude"
  | .preserved => "ignore"
  | .literal => "literal"

end RegionKind

/-- A removed or protected part of a text. -/
structure Region where
  kind : RegionKind
  /-- All that the region takes up, markers included. -/
  span : Span
  /-- The content between the markers. -/
  interior : Span
deriving DecidableEq, Repr

namespace Region

/-- The opening marker, with what it absorbs. -/
def opening (region : Region) : Span := ⟨region.span.start, region.interior.start⟩

/-- The closing marker, with what it absorbs. -/
def closing (region : Region) : Span := ⟨region.interior.stop, region.span.stop⟩

/-- Whether a range meets the content; an empty range counts as the position it stands at. -/
def interiorOverlaps (region : Region) (range : Span) : Bool :=
  let stop := max range.stop (range.start + 1)
  range.start < region.interior.stop && region.interior.start < stop

end Region
end TaggedHeader
