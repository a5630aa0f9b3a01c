import TaggedHeader.Pass.Draft

/-!
# From a header to its module interface

`transform` is the whole conversion of one header, read off the draft that the passes leave behind. Tags
that mean nothing stay in the text and are reported; only a region inside another region is an error.
-/

namespace TaggedHeader

/-- What is left to the caller about a conversion. -/
structure TransformOptions where
  /-- Inclusions stay as they are instead of becoming imports. -/
  disableIncludeImport : Bool := false
deriving DecidableEq, Repr, Inhabited

/-- A converted header. -/
structure Transformation where
  /-- The module interface. -/
  text : Text
  /-- The tags left in the text, by place. -/
  diagnostics : List Diagnostic
  /-- What each pass did, in the order they ran. -/
  reports : List PassReport
  /-- How many edits were made. -/
  changes : Nat
deriving DecidableEq, Repr

/-- How many tags, regions and prompts were settled in all passes. -/
def Transformation.settled (result : Transformation) : Nat :=
  result.reports.foldr (fun report count => report.settled + count) 0

/-- The draft that is left of a header when every pass has run, with what each pass did. -/
def finalDraft (options : TransformOptions) (text : Text) :
    Except TransformError (Draft × List PassReport) := do
  let tags := scanTags text
  let scan ← scanRegions text tags
  TransformError.ofRange
    ((Draft.ofScan text tags scan).runAll options.disableIncludeImport (.ofText text) Pass.order)

/-- Converts a header into a module interface. -/
def transform (options : TransformOptions) (text : Text) : Except TransformError Transformation := do
  let (draft, reports) ← finalDraft options text
  return {
    text := draft.source.current
    diagnostics := draft.sortedDiagnostics
    reports
    changes := draft.source.changes }

end TaggedHeader
