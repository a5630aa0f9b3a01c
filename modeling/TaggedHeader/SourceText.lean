import TaggedHeader.Edit
import TaggedHeader.Region

/-!
# A text under revision

The text of a header is changed by one replacement after another. A source text remembers the text it
began with, a bounded number of earlier states and how often it was changed, and it keeps every region in
coordinates of the text as it is now.
-/

namespace TaggedHeader

open Text

/-- A text with its past and its regions. -/
structure SourceText where
  /-- The text before any change. -/
  initial : Text
  current : Text
  /-- The states before the current one, the latest first. -/
  history : List Text
  regions : List Region
  changes : Nat
deriving DecidableEq, Repr

namespace SourceText

/-- How many earlier states are remembered. -/
def maxHistory : Nat := 100

/-- A text before any change, with regions recorded in it. -/
def ofText (text : Text) (regions : List Region) : SourceText :=
  { initial := text, current := text, history := [], regions, changes := 0 }

/-- The state before the latest change. -/
def previous? (source : SourceText) : Option Text := source.history.head?

/-- By how many bytes the latest change lengthened the text. -/
def delta (source : SourceText) : Int :=
  match source.previous? with
  | some previous => (size source.current : Int) - size previous
  | none => 0

/-- By how many bytes the text is longer than at first. -/
def offset (source : SourceText) : Int := (size source.current : Int) - size source.initial

/-- Moves both ranges of a region along with an edit. -/
def rebaseRegion (edit : Edit) (region : Region) : Region :=
  { region with span := edit.mapRange region.span, interior := edit.mapRange region.interior }

/-- Replaces a range of the text. Nothing changes when the range selects nothing. -/
def replace (source : SourceText) (range : Span) (replacement : Text) :
    Except RangeFault (Edit × SourceText) := do
  let edit ← Edit.replacing range (size replacement)
  let (before, _) ← cutAt range.start source.current
  let (_, after) ← cutAt range.stop source.current
  return (edit,
    { source with
      current := before ++ replacement ++ after
      history := (source.current :: source.history).take maxHistory
      regions := source.regions.map (rebaseRegion edit)
      changes := source.changes + 1 })

/-- Whether a range meets protected content. -/
def isProtected (source : SourceText) (range : Span) : Bool :=
  source.regions.any fun region => region.kind.isProtected && region.interiorOverlaps range

end SourceText
end TaggedHeader
