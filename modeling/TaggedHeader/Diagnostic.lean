import TaggedHeader.Region
import TaggedHeader.Text.LineTable

/-!
# What is reported about a header

A tag that cannot be honoured is left in the text and reported with its line and column. Only regions
inside regions stop the conversion of a header.
-/

namespace TaggedHeader

/-- Why a tag is left in the text. -/
inductive Diagnostic.Cause where
  /-- A begin marker without an end marker behind it. -/
  | unclosedRegion (kind : RegionKind)
  /-- An end marker without a begin marker before it. -/
  | unmatchedEnd (kind : RegionKind)
  /-- A tag whose payload is no directive. -/
  | unknownDirective (payload : Text)
  /-- A module fragment behind the first one. -/
  | duplicateModuleFragment
deriving DecidableEq, Repr

/-- A tag left in the text, at its place in the header as it was given. -/
structure Diagnostic where
  cause : Diagnostic.Cause
  line : Nat
  column : Nat
deriving DecidableEq, Repr

namespace Diagnostic

/-- A diagnostic about the byte at `offset`. -/
def located (lines : LineTable) (offset : Nat) (cause : Cause) : Diagnostic :=
  let point := lines.point offset
  ⟨cause, point.line, point.column⟩

/-- The order in which diagnostics are listed: by line, then by column. -/
def precedes (first second : Diagnostic) : Bool :=
  first.line < second.line || (first.line == second.line && first.column ≤ second.column)

/-- The sentence that explains the diagnostic. -/
def message (diagnostic : Diagnostic) : String :=
  match diagnostic.cause with
  | .unclosedRegion kind =>
    "`" ++ kind.word ++ " begin` has no matching `" ++ kind.word ++ " end`; left as-is"
  | .unmatchedEnd kind =>
    "`" ++ kind.word ++ " end` has no matching `" ++ kind.word ++ " begin`; left as-is"
  | .unknownDirective payload => "unknown tag `/*[" ++ String.ofList payload ++ "]*/`; left as-is"
  | .duplicateModuleFragment => "only the first `/*[module]*/` tag is converted; left as-is"

end Diagnostic

/-- Why a header has no module interface. -/
inductive TransformError where
  /-- A marker of a region of the given kind lies inside another region. -/
  | nestedRegion (kind : RegionKind) (outer inner : Span)
  /-- A range recorded about the text selects nothing in it. -/
  | badRange (fault : RangeFault)
deriving DecidableEq, Repr

namespace TransformError

/-- The sentence that explains the error. -/
def message : TransformError → String
  | .nestedRegion kind _ _ => "`" ++ kind.word ++ "` region nested inside another region"
  | .badRange _ => "a recorded range selects nothing"

/-- A cut of the text as a step of a transformation. -/
def ofRange {α : Type} (result : Except RangeFault α) : Except TransformError α :=
  result.mapError .badRange

end TransformError
end TaggedHeader
