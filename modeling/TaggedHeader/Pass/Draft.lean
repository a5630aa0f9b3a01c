import TaggedHeader.Pass
import TaggedHeader.Prompt
import TaggedHeader.Region.Scan
import TaggedHeader.SourceText

/-!
# A header on its way to a module interface

A draft is the text under revision together with the tags that are still pending in it and the diagnostics
gathered so far. Every pass goes through `Draft.apply`, which edits the text and moves the pending tags
along; a tag that an edit touches is settled and no longer pending.
-/

namespace TaggedHeader

open Text

/-- A header between two passes. -/
structure Draft where
  source : SourceText
  /-- The pending tags, in coordinates of the current text. -/
  tags : List Tag
  diagnostics : List Diagnostic
deriving DecidableEq, Repr

/-- Moves tags along with an edit and drops those it touched. -/
def rebaseTags (edit : Edit) : List Tag → Except RangeFault (List Tag)
  | [] => .ok []
  | tag :: rest => do
    let moved ← edit.mapSpan tag.span
    let others ← rebaseTags edit rest
    match moved with
    | some span => return { tag with span } :: others
    | none => return others

namespace Draft

/-- Whether a tag is to be reported as unknown. An empty payload is an ordinary comment, and a tag in a
region is content. -/
def isReportedUnknown (regions : List Region) (tag : Tag) : Bool :=
  tag.directive == .unknown && !tag.payload.isEmpty && !inSomeRegion regions tag.span

/-- The draft of a header before the first pass. -/
def ofScan (text : Text) (tags : List Tag) (scan : RegionScan) : Draft :=
  let lines := LineTable.ofText text
  let unknown := (tags.filter (isReportedUnknown scan.regions)).map fun tag =>
    Diagnostic.located lines tag.origin (.unknownDirective tag.payload)
  { source := .ofText text scan.regions, tags, diagnostics := scan.diagnostics ++ unknown }

/-- Replaces a range of the text and moves everything recorded about it. -/
def apply (draft : Draft) (range : Span) (replacement : Text) : Except RangeFault (Edit × Draft) := do
  let (edit, source) ← draft.source.replace range replacement
  let tags ← rebaseTags edit draft.tags
  return (edit, { draft with source, tags })

/-- A draft and what the current pass has done so far. -/
abbrev Progress := Draft × PassReport

/-- Counts one place settled. -/
def settled (draft : Draft) (report : PassReport) : Progress :=
  (draft, { report with settled := report.settled + 1 })

/-- Counts one place left alone. -/
def skipped (draft : Draft) (report : PassReport) : Progress :=
  (draft, { report with skipped := report.skipped + 1 })

/-- Takes the markers of the region at an index away if the region is protected. -/
def unwrapRegion : Progress → Nat → Except RangeFault Progress
  | (draft, report), index =>
    match draft.source.regions[index]? with
    | none => .ok (draft, report)
    | some region =>
      if region.kind.isProtected then do
        let (edit, opened) ← draft.apply region.opening []
        let (_, closed) ← opened.apply (SourceText.rebaseRegion edit region).closing []
        return settled closed report
      else .ok (draft, report)

/-- Deletes the region at an index if it is removed content. -/
def removeRegion : Progress → Nat → Except RangeFault Progress
  | (draft, report), index =>
    match draft.source.regions[index]? with
    | none => .ok (draft, report)
    | some region =>
      if region.kind = .removed then do
        let (_, deleted) ← draft.apply region.span []
        return settled deleted report
      else .ok (draft, report)

/-- What takes the place of a tag. An exported declaration keeps a blank between itself and the word
`export`. -/
def replacement? (draft : Draft) (tag : Tag) : Except RangeFault (Option Text) := do
  match tag.directive.render? with
  | none => return none
  | some rendered =>
    if tag.directive = .exportDeclaration then
      let next ← charAt tag.span.stop draft.source.current
      return some (if next.any (!isBlank ·) then rendered ++ [' '] else rendered)
    else return some rendered

/-- Settles the pending tag with an origin, unless it is protected or a surplus module fragment. -/
def settleTag (lines : LineTable) : Progress → Nat → Except RangeFault Progress
  | (draft, report), origin =>
    match draft.tags.find? (·.origin == origin) with
    | none => .ok (draft, report)
    | some tag => do
      let _ ← slice tag.span draft.source.current
      if draft.source.isProtected tag.span then
        return skipped draft report
      else if report.pass.multiplicity = .first ∧ 0 < report.settled then
        let surplus := Diagnostic.located lines tag.origin .duplicateModuleFragment
        return skipped { draft with diagnostics := draft.diagnostics ++ [surplus] } report
      else
        match ← draft.replacement? tag with
        | none => return (draft, report)
        | some text =>
          let (_, replaced) ← draft.apply tag.span text
          return settled replaced report

/-- Replaces the prompt comment by a newline, unless it is protected. -/
def stripPrompt (draft : Draft) : Except RangeFault Progress :=
  let report := PassReport.idle .metatagPrompt
  match findPrompt? draft.source.current with
  | none => .ok (draft, report)
  | some range => do
    let _ ← slice range draft.source.current
    if draft.source.isProtected range then
      return skipped draft report
    else
      let (_, stripped) ← draft.apply range ['\n']
      return settled stripped report

/-- Goes through the regions one by one. -/
def forRegions (step : Progress → Nat → Except RangeFault Progress) (pass : Pass) (draft : Draft) :
    Except RangeFault Progress :=
  (List.range draft.source.regions.length).foldlM step (draft, .idle pass)

/-- Goes through the tags that a pass accepts, in order. -/
def settleTags (lines : LineTable) (pass : Pass) (draft : Draft) : Except RangeFault Progress :=
  let origins := (draft.tags.filter fun tag => pass.accepts tag.directive).map Tag.origin
  origins.foldlM (settleTag lines) (draft, .idle pass)

/-- Runs one pass. Inclusions stay as they are when they are not to become imports. -/
def run (keepIncludes : Bool) (lines : LineTable) (pass : Pass) (draft : Draft) :
    Except RangeFault Progress :=
  match pass with
  | .unwrapRegions => draft.forRegions unwrapRegion pass
  | .removeExcluded => draft.forRegions removeRegion pass
  | .includeImport => if keepIncludes then .ok (draft, .idle pass) else draft.settleTags lines pass
  | .metatagPrompt => draft.stripPrompt
  | _ => draft.settleTags lines pass

/-- Runs passes one after another and collects their reports. -/
def runAll (keepIncludes : Bool) (lines : LineTable) :
    List Pass → Draft → Except RangeFault (Draft × List PassReport)
  | [], draft => .ok (draft, [])
  | pass :: passes, draft => do
    let (next, report) ← draft.run keepIncludes lines pass
    let (last, reports) ← runAll keepIncludes lines passes next
    return (last, report :: reports)

/-- The diagnostics in the order of their places. -/
def sortedDiagnostics (draft : Draft) : List Diagnostic :=
  draft.diagnostics.mergeSort Diagnostic.precedes

end Draft
end TaggedHeader
