import TaggedHeader.Diagnostic
import TaggedHeader.Tag.Scan

/-!
# Finding the regions of a header

Every begin marker is paired with the first end marker of its kind behind it, and each literal block is
a region by itself. A marker without partner stays in the text and is reported, unless it is content of
a region. A region inside another one is an error.

Regions come out in the order of their opening markers, which is the order of their spans.
-/

namespace TaggedHeader

open Text

/-- The part of a directive in delimiting regions. -/
inductive Marker where
  /-- A region of the kind starts. -/
  | opening (kind : RegionKind)
  /-- A region of the kind ends. -/
  | closing (kind : RegionKind)
  /-- A region by itself. -/
  | block
deriving DecidableEq, Repr

/-- The part that a directive has in delimiting regions, if any. -/
def Directive.marker? : Directive → Option Marker
  | .excludeBegin => some (.opening .removed)
  | .excludeEnd => some (.closing .removed)
  | .ignoreBegin => some (.opening .preserved)
  | .ignoreEnd => some (.closing .preserved)
  | .literal => some .block
  | _ => none

/-- Whether the byte before `offset` is a newline. -/
def followsNewline (source : Text) (offset : Nat) : Except RangeFault Bool := do
  return (← charBefore offset source) == some '\n'

/-- The region between a begin and an end marker.

A marker of removed content takes the newline before it along. A marker of preserved content does so too;
at the very start of the text it takes the newline behind it instead. An end marker leaves a newline that
its begin marker has taken. -/
def markedRegion (source : Text) (kind : RegionKind) (opening closing : Span) :
    Except RangeFault Region := do
  let afterNewline ← followsNewline source opening.start
  let start := if afterNewline then opening.start - 1 else opening.start
  if kind = .removed then
    return ⟨kind, ⟨start, closing.stop⟩, ⟨opening.stop, closing.start⟩⟩
  let next ← charAt opening.stop source
  let interiorStart :=
    if !afterNewline && opening.start == 0 && next == some '\n' then opening.stop + 1
    else opening.stop
  let endAfterNewline ← followsNewline source closing.start
  let interiorStop :=
    if endAfterNewline && interiorStart < closing.start then closing.start - 1
    else closing.start
  return ⟨kind, ⟨start, closing.stop⟩, ⟨interiorStart, interiorStop⟩⟩

/-- What pairing the markers of a header yields. -/
structure Pairing where
  /-- The regions, in the order of their opening markers. -/
  regions : List Region
  /-- The markers that delimit a region, in order. -/
  markers : List (RegionKind × Span)
  /-- The markers without partner, in order. -/
  unpaired : List (Span × Diagnostic)
deriving DecidableEq, Repr

/-- Pairs the markers among tags, given the kinds of the regions that are open before them. -/
def pairMarkers (source : Text) (lines : LineTable) (opened : List RegionKind) :
    List Tag → Except RangeFault Pairing
  | [] => .ok ⟨[], [], []⟩
  | tag :: rest =>
    match tag.directive.marker? with
    | none => pairMarkers source lines opened rest
    | some .block => do
      let interior ← tag.literalInterior
      let found ← pairMarkers source lines opened rest
      return { found with
        regions := ⟨.literal, tag.span, interior⟩ :: found.regions
        markers := (.literal, tag.span) :: found.markers }
    | some (.opening kind) =>
      match rest.find? (·.directive.marker? == some (.closing kind)) with
      | some partner => do
        let region ← markedRegion source kind tag.span partner.span
        let found ← pairMarkers source lines (kind :: opened) rest
        return { found with
          regions := region :: found.regions
          markers := (kind, tag.span) :: found.markers }
      | none => do
        let found ← pairMarkers source lines opened rest
        let diagnostic := Diagnostic.located lines tag.origin (.unclosedRegion kind)
        return { found with unpaired := (tag.span, diagnostic) :: found.unpaired }
    | some (.closing kind) => do
      let found ← pairMarkers source lines (opened.filter (· ≠ kind)) rest
      if kind ∈ opened then
        return { found with markers := (kind, tag.span) :: found.markers }
      else
        let diagnostic := Diagnostic.located lines tag.origin (.unmatchedEnd kind)
        return { found with unpaired := (tag.span, diagnostic) :: found.unpaired }

/-- The first region with a marker in its interior, along with the first such marker. -/
def Pairing.nesting? (pairing : Pairing) : Option (Region × RegionKind × Span) :=
  pairing.regions.findSome? fun region =>
    (pairing.markers.find? fun marker => region.interior.encloses marker.2).map (region, ·)

/-- Whether a span lies in one of the regions. -/
def inSomeRegion (regions : List Region) (span : Span) : Bool :=
  regions.any (·.span.encloses span)

/-- The regions of a header, and the markers outside them that have no partner. -/
structure RegionScan where
  regions : List Region
  diagnostics : List Diagnostic
deriving DecidableEq, Repr

/-- Finds the regions of a header from its tags. -/
def scanRegions (source : Text) (tags : List Tag) : Except TransformError RegionScan := do
  let pairing ← TransformError.ofRange (pairMarkers source (.ofText source) [] tags)
  match pairing.nesting? with
  | some (region, kind, marker) => throw (.nestedRegion kind region.span marker)
  | none =>
    let outside := pairing.unpaired.filter fun entry => !inSomeRegion pairing.regions entry.1
    return ⟨pairing.regions, outside.map Prod.snd⟩

end TaggedHeader
