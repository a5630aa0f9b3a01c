import TaggedHeader.Proofs.Replacing
import TaggedHeader.Region.Scan

/-!
# The interior of a region under revision

An edit moves the span of a region and its interior independently of each other. The interior stays within
the span, so that the two markers around it are ranges of the text as before, with one exception. An edit may
start inside the region, at or before its interior, and reach the end of the region. It swallows the interior,
which is empty from then on and lies behind the inserted text, while the span no longer holds anything from
where the edit starts. Such an edit *overruns* the region; the interior is then within the span only if nothing
has been inserted.
-/

namespace TaggedHeader

open Text

/-- The interior of a region lies within its span, and the span in a text. -/
structure Region.NestedIn (text : Text) (region : Region) : Prop where
  start_le : region.span.start ≤ region.interior.start
  interior_le : region.interior.start ≤ region.interior.stop
  le_stop : region.interior.stop ≤ region.span.stop
  stop_le : region.span.stop ≤ size text

instance (text : Text) (region : Region) : Decidable (region.NestedIn text) :=
  decidable_of_iff (region.span.start ≤ region.interior.start ∧ region.interior.start ≤ region.interior.stop ∧
    region.interior.stop ≤ region.span.stop ∧ region.span.stop ≤ size text)
    ⟨fun ⟨hstart, hinterior, hstop, hfits⟩ => ⟨hstart, hinterior, hstop, hfits⟩,
      fun h => ⟨h.start_le, h.interior_le, h.le_stop, h.stop_le⟩⟩

/-- Both ranges of a region lie in a text, and the interior does not start before the span. -/
structure Region.LiesIn (text : Text) (region : Region) : Prop where
  span_le : region.span.start ≤ region.span.stop
  span_fits : region.span.stop ≤ size text
  interior_le : region.interior.start ≤ region.interior.stop
  interior_fits : region.interior.stop ≤ size text
  opening_le : region.span.start ≤ region.interior.start

/-- An edit that puts new text in the place of the interior of a region and of all that the region has behind
it, but not of the start of the region. -/
def Edit.Overruns (edit : Edit) (region : Region) : Prop :=
  0 < edit.inserted ∧ region.span.start < edit.start ∧ edit.start ≤ region.interior.start ∧
    region.span.stop ≤ edit.stop

instance (edit : Edit) (region : Region) : Decidable (edit.Overruns region) :=
  inferInstanceAs (Decidable (_ ∧ _))

namespace Edit

variable {edit : Edit} {region : Region}

/-- An interior ends within the span that it has been moved with if it starts there. -/
theorem mapRange_stop_le_iff {inner outer : Span} (h : inner.stop ≤ outer.stop) :
    (edit.mapRange inner).stop ≤ (edit.mapRange outer).stop ↔
      edit.mapStart inner.start ≤ (edit.mapRange outer).stop := by
  have hstop : edit.mapStop inner.stop ≤ (edit.mapRange outer).stop :=
    (edit.mapStop_mono h).trans (Nat.le_max_left _ _)
  exact ⟨(Nat.le_max_right _ _).trans, fun hstart => Nat.max_le.mpr ⟨hstop, hstart⟩⟩

/-- The moved interior starts within the moved span unless the edit overruns the region. -/
theorem mapStart_le_mapRange_stop_iff (hstart : region.span.start ≤ region.interior.start)
    (hstop : region.interior.start ≤ region.span.stop) :
    edit.mapStart region.interior.start ≤ (edit.mapRange region.span).stop ↔ ¬ edit.Overruns region := by
  have := edit.ordered
  grind [Overruns, mapRange, mapStart, mapStop, shift]

/-- An edit that overruns a region cuts the span off where it starts and leaves the interior, which is empty,
behind the inserted text. -/
theorem Overruns.rebaseRegion_eq (h : edit.Overruns region)
    (hnested : region.interior.start ≤ region.interior.stop ∧ region.interior.stop ≤ region.span.stop) :
    SourceText.rebaseRegion edit region = { region with
      span := ⟨region.span.start, edit.start⟩
      interior := ⟨edit.start + edit.inserted, edit.start + edit.inserted⟩ } := by
  obtain ⟨-, hbefore, hat, hend⟩ := h
  have := edit.ordered
  grind [SourceText.rebaseRegion, mapRange, mapStart, mapStop, shift]

end Edit

namespace SourceText

variable {source next : SourceText} {range : Span} {replacement : Text} {edit : Edit} {region : Region}

/-- Whatever is replaced, the ranges of a region lie in the text, and its opening marker is not inverted. -/
theorem liesIn_rebaseRegion (h : source.replace range replacement = .ok (edit, next))
    (hnested : region.NestedIn source.current) : (rebaseRegion edit region).LiesIn next.current := by
  obtain ⟨hstart, hinterior, hstop, hfits⟩ := hnested
  obtain ⟨hedit, hsize⟩ := size_replace h
  exact {
    span_le := edit.mapRange_start_le_stop _
    span_fits := hsize ▸ Edit.mapRange_stop_le hfits (hstart.trans (hinterior.trans hstop)) hedit
    interior_le := edit.mapRange_start_le_stop _
    interior_fits := hsize ▸ Edit.mapRange_stop_le (hstop.trans hfits) hinterior hedit
    opening_le := edit.mapStart_mono hstart }

/-- A replacement keeps the interior of a region within its span exactly if it does not overrun the region. -/
theorem nestedIn_rebaseRegion_iff (h : source.replace range replacement = .ok (edit, next))
    (hnested : region.NestedIn source.current) :
    (rebaseRegion edit region).NestedIn next.current ↔ ¬ edit.Overruns region := by
  have hlies := liesIn_rebaseRegion h hnested
  obtain ⟨hstart, hinterior, hstop, -⟩ := hnested
  rw [← Edit.mapStart_le_mapRange_stop_iff hstart (hinterior.trans hstop), ← Edit.mapRange_stop_le_iff hstop]
  exact ⟨Region.NestedIn.le_stop, fun hle => ⟨hlies.opening_le, hlies.interior_le, hle, hlies.span_fits⟩⟩

/-- The markers of a region select a part of the text again, the closing one unless the region is overrun. -/
theorem selects_markers (h : source.replace range replacement = .ok (edit, next))
    (hnested : region.NestedIn source.current)
    (hopening : ∃ part, Selects source.current region.opening part)
    (hclosing : ∃ part, Selects source.current region.closing part) :
    (∃ part, Selects next.current (rebaseRegion edit region).opening part) ∧
      (¬ edit.Overruns region → ∃ part, Selects next.current (rebaseRegion edit region).closing part) := by
  obtain ⟨opening, hopening⟩ := hopening
  obtain ⟨closing, hclosing⟩ := hclosing
  obtain ⟨hstart, hstop⟩ := isBoundary_mapRange h region.span hopening.isBoundary_start
    hclosing.isBoundary_stop
  obtain ⟨hinterior, hend⟩ := isBoundary_mapRange h region.interior hopening.isBoundary_stop
    hclosing.isBoundary_start
  refine ⟨hstart.selects hinterior (liesIn_rebaseRegion h hnested).opening_le, fun hspared => ?_⟩
  exact hend.selects hstop ((nestedIn_rebaseRegion_iff h hnested).mpr hspared).le_stop

/-- A replacement that overruns no region. -/
def ReplacesSparing (source : SourceText) (sub : Substitution) (next : SourceText) : Prop :=
  ∃ edit, source.replace sub.span sub.text = .ok (edit, next) ∧
    ∀ region ∈ source.regions, ¬ edit.Overruns region

/-- A run that overruns no region keeps the interior of every region within its span. -/
theorem nestedIn_of_run {source last : SourceText} {subs : List Substitution}
    (h : Run ReplacesSparing source subs last)
    (hnested : ∀ region ∈ source.regions, region.NestedIn source.current) :
    ∀ region ∈ last.regions, region.NestedIn last.current := by
  refine h.preserves (P := fun state => ∀ region ∈ state.regions, region.NestedIn state.current)
    (fun {state sub next} hstep hstate => ?_) hnested
  obtain ⟨edit, hreplace, hspared⟩ := hstep
  rw [regions_replace hreplace]
  intro moved hmoved
  obtain ⟨region, hregion, rfl⟩ := List.mem_map.mp hmoved
  exact (nestedIn_rebaseRegion_iff hreplace (hstate region hregion)).mpr (hspared region hregion)

/-- A replacement keeps the interior of each region within its span, and so leaves both of its markers as ranges
of the text, unless it overruns the region.

Every replacement of a range that selects something succeeds. In the state that it leaves, both ranges of a
region lie in the text and the opening marker is not inverted. The interior ends within the span exactly if the
replacement has not overrun the region; otherwise the span ends where the replaced range starts, and the
interior is empty and lies behind the new text. -/
theorem replace_keeps_interior_nested {source : SourceText} {range : Span} {part : Text}
    (hnested : ∀ region ∈ source.regions, region.NestedIn source.current)
    (hrange : Selects source.current range part) (replacement : Text) :
    ∃ edit next, source.replace range replacement = .ok (edit, next) ∧
      edit.start = range.start ∧ edit.stop = range.stop ∧ edit.inserted = size replacement ∧
      List.Forall₂ (fun before after : Region => after.LiesIn next.current ∧
          (after.NestedIn next.current ↔ ¬ edit.Overruns before) ∧
          (edit.Overruns before → after = { before with
            span := ⟨before.span.start, edit.start⟩
            interior := ⟨edit.start + edit.inserted, edit.start + edit.inserted⟩ }) ∧
          ((∃ part, Selects source.current before.opening part) →
            (∃ part, Selects source.current before.closing part) →
              (∃ part, Selects next.current after.opening part) ∧
                (¬ edit.Overruns before → ∃ part, Selects next.current after.closing part)))
        source.regions next.regions := by
  obtain ⟨edit, next, hreplace⟩ := exists_replace hrange replacement
  obtain ⟨_, _, _, -, -, -, hstart, hstop, hinserted, -⟩ := replace_eq_ok_iff.mp hreplace
  refine ⟨edit, next, hreplace, hstart, hstop, hinserted, ?_⟩
  rw [regions_replace hreplace, List.forall₂_map_right_iff, List.forall₂_same]
  intro region hregion
  have hregion := hnested region hregion
  exact ⟨liesIn_rebaseRegion hreplace hregion, nestedIn_rebaseRegion_iff hreplace hregion,
    fun hoverrun => hoverrun.rebaseRegion_eq ⟨hregion.interior_le, hregion.le_stop⟩,
    selects_markers hreplace hregion⟩

/-- Two regions side by side. -/
def bracketedText : SourceText :=
  .ofText "(a)[b]".toList [⟨.literal, ⟨0, 3⟩, ⟨1, 2⟩⟩, ⟨.preserved, ⟨3, 6⟩, ⟨4, 5⟩⟩]

theorem replace_keeps_interior_nested_bracketedText :
    (∀ region ∈ bracketedText.regions, region.NestedIn bracketedText.current) ∧
      Selects bracketedText.current ⟨1, 3⟩ "a)".toList ∧
      ∃ edit next first second, bracketedText.replace ⟨1, 3⟩ "xyz".toList = .ok (edit, next) ∧
        next.current = "(xyz[b]".toList ∧ next.regions = [first, second] ∧
        first = ⟨.literal, ⟨0, 1⟩, ⟨4, 4⟩⟩ ∧ ¬ first.NestedIn next.current ∧
        second = ⟨.preserved, ⟨4, 7⟩, ⟨5, 6⟩⟩ ∧ second.NestedIn next.current ∧
        ∃ part, Selects next.current second.closing part := by
  have hnested : ∀ region ∈ bracketedText.regions, region.NestedIn bracketedText.current := by decide
  have hrange : Selects bracketedText.current ⟨1, 3⟩ "a)".toList := ⟨"(".toList, "[b]".toList, rfl, rfl, rfl⟩
  obtain ⟨edit, next, hreplace, -, -, -, hregions⟩ :=
    replace_keeps_interior_nested hnested hrange "xyz".toList
  have hresult := hreplace
  cases hresult
  obtain ⟨⟨-, hfirst, -⟩, ⟨-, hsecond, -, hmarkers⟩, -⟩ :
      _ ∧ _ ∧ List.Forall₂ _ [] [] := by
    cases hregions with
    | cons hfirst hrest => cases hrest with
      | cons hsecond hnone => exact ⟨hfirst, hsecond, hnone⟩
  obtain ⟨-, hclosing⟩ := hmarkers ⟨"[".toList, "(a)".toList, "b]".toList, rfl, rfl, rfl⟩
    ⟨"]".toList, "(a)[b".toList, [], rfl, rfl, rfl⟩
  exact ⟨hnested, hrange, _, _, _, _, hreplace, rfl, rfl, rfl, fun h => hfirst.mp h (by decide), rfl,
    hsecond.mpr (by decide), hclosing (by decide)⟩

/-- A literal block, as the regions of a header are found. -/
def literalBlock : Text := "/*[[a]]*/".toList

/-- New text in the place of the content and the closing marker of a block leaves the content behind the block. -/
theorem overrun_interior_leaves_span :
    ∃ region edit next, scanRegions literalBlock (scanTags literalBlock) = .ok ⟨[region], []⟩ ∧
      region.NestedIn literalBlock ∧ Selects literalBlock ⟨4, 9⟩ "a]]*/".toList ∧
      (SourceText.ofText literalBlock [region]).replace ⟨4, 9⟩ "b".toList = .ok (edit, next) ∧
      next.regions = [⟨.literal, ⟨0, 4⟩, ⟨5, 5⟩⟩] ∧
      ¬ ∀ region ∈ next.regions, region.NestedIn next.current := by
  refine ⟨⟨.literal, ⟨0, 9⟩, ⟨4, 5⟩⟩, ⟨4, 9, 1, by decide⟩, _, by decide +kernel, by decide,
    ⟨"/*[[".toList, [], rfl, rfl, rfl⟩, rfl, rfl, ?_⟩
  decide

end SourceText
end TaggedHeader
