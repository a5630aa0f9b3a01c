import TaggedHeader.Proofs.Draft.Steps
import TaggedHeader.Proofs.Region.Layout

/-!
# Protected content

No pass changes the content of a protected region. Every edit that a conversion makes lies outside all
protected interiors of the text as it is then: the markers of a region because regions keep their order,
tags and the prompt because the passes look before they edit. Such an edit moves an interior and leaves
what it selects alone.
-/

namespace TaggedHeader

open Text

/-- A region before another one; both have ranges that are not inverted. -/
structure Region.Precedes (left right : Region) : Prop where
  spans : left.span.stop ≤ right.span.start
  span_interior : left.span.stop ≤ right.interior.start
  interior_span : left.interior.stop ≤ right.span.start
  interiors : left.interior.stop ≤ right.interior.start

/-- Both ranges of a region start before they stop. -/
structure Region.IsUpright (region : Region) : Prop where
  span : region.span.start ≤ region.span.stop
  interior : region.interior.start ≤ region.interior.stop

/-- A range that an edit may replace without touching protected content. -/
def SourceText.Clears (source : SourceText) (range : Span) : Prop :=
  ∀ region ∈ source.regions, region.kind.isProtected = true → range.Apart region.interior

/-- The regions of a text under revision still select the content they protect, and stand in order. -/
structure SourceText.Guards (text : Text) (regions : List Region) (source : SourceText) : Prop where
  kept : List.Forall₂ (fun given current => current.kind = given.kind ∧
    (given.kind.isProtected = true → ∃ content, Selects text given.interior content ∧
      Selects source.current current.interior content)) regions source.regions
  upright : ∀ region ∈ source.regions, region.IsUpright
  ordered : source.regions.Pairwise Region.Precedes

namespace SourceText

variable {source : SourceText} {range : Span}

/-- A range that is found not to be protected lies outside protected content. -/
theorem clears_of_not_isProtected (h : source.isProtected range = false) : source.Clears range := by
  intro region hregion hprotected
  have hclear := List.any_eq_false.mp h region hregion
  simp only [hprotected, Region.interiorOverlaps, Bool.true_and, Bool.and_eq_true, decide_eq_true_eq,
    not_and, Nat.not_lt] at hclear
  simp only [Span.Apart]
  omega

namespace Guards

variable {text replacement : Text} {regions : List Region} {next : SourceText} {edit : Edit}

/-- The regions of a layout guard the text before any change. -/
theorem ofLayout (layout : Layout) :
    Guards layout.text layout.regions (.ofText layout.text layout.regions) where
  kept := by
    refine List.forall₂_same.mpr fun region hregion => ⟨rfl, fun _ => ?_⟩
    have hfits := layout.fitsIn region hregion
    obtain ⟨content, hcontent⟩ :=
      hfits.isBoundary_interiorStart.selects hfits.isBoundary_interiorStop hfits.interior_le
    exact ⟨content, hcontent, hcontent⟩
  upright := by
    intro region hregion
    have hfits := layout.fitsIn region hregion
    exact ⟨Nat.le_of_lt (hfits.opening_lt.trans_le (hfits.interior_le.trans (Nat.le_of_lt hfits.closing_lt))),
      hfits.interior_le⟩
  ordered := by
    refine layout.ordered.imp_of_mem fun {left right} hleft hright hle => ?_
    have hclosing := Nat.le_of_lt (layout.fitsIn left hleft).closing_lt
    have hopening := Nat.le_of_lt (layout.fitsIn right hright).opening_lt
    exact ⟨hle, hle.trans hopening, hclosing.trans hle, (hclosing.trans hle).trans hopening⟩

/-- An edit outside protected content keeps it. -/
theorem replace (h : Guards text regions source)
    (hreplace : source.replace range replacement = .ok (edit, next)) (hclears : source.Clears range) :
    Guards text regions next := by
  have hregions := regions_replace hreplace
  constructor
  · rw [hregions, List.forall₂_map_right_iff]
    refine forall₂_imp_of_mem h.kept fun given _ current hcurrent ⟨hkind, hkept⟩ =>
      ⟨hkind, fun hprotected => ?_⟩
    obtain ⟨content, hgiven, hcontent⟩ := hkept hprotected
    exact ⟨content, hgiven,
      selects_mapRange hreplace hcontent (hclears current hcurrent (hkind ▸ hprotected))⟩
  · rw [hregions]
    intro region hregion
    obtain ⟨before, -, rfl⟩ := List.mem_map.mp hregion
    exact ⟨edit.mapRange_start_le_stop _, edit.mapRange_start_le_stop _⟩
  · rw [hregions, List.pairwise_map]
    refine h.ordered.imp_of_mem fun {left right} hleft _ hprecedes => ?_
    obtain ⟨hspan, hinterior⟩ := h.upright left hleft
    exact ⟨edit.mapRange_ordered hspan hprecedes.spans, edit.mapRange_ordered hspan hprecedes.span_interior,
      edit.mapRange_ordered hinterior hprecedes.interior_span,
      edit.mapRange_ordered hinterior hprecedes.interiors⟩

end Guards
end SourceText

namespace Draft

variable {text : Text} {regions : List Region} {draft next last : Draft}

/-- An edit of a draft outside protected content keeps it. -/
theorem guards_apply {edit : Edit} {range : Span} {replacement : Text}
    (h : draft.source.Guards text regions) (hclears : draft.source.Clears range)
    (happly : draft.apply range replacement = .ok (edit, next)) : next.source.Guards text regions := by
  obtain ⟨source, tags, hreplace, -, rfl⟩ := apply_eq_ok_iff.mp happly
  exact h.replace hreplace hclears

/-- The regions after an edit are the moved regions. -/
theorem regions_apply {edit : Edit} {range : Span} {replacement : Text}
    (happly : draft.apply range replacement = .ok (edit, next)) :
    next.source.regions = draft.source.regions.map (SourceText.rebaseRegion edit) := by
  obtain ⟨source, tags, hreplace, -, rfl⟩ := apply_eq_ok_iff.mp happly
  exact SourceText.regions_replace hreplace

/-- A part of a region that is no protected content lies outside the protected content of all regions. -/
theorem clears_of_region (h : draft.source.Guards text regions) {index : Nat} {region : Region}
    (hregion : draft.source.regions[index]? = some region) {range : Span}
    (hrange : region.kind.isProtected = true → range.Apart region.interior)
    (hstart : region.span.start ≤ range.start ∨ region.interior.stop ≤ range.start)
    (hstop : range.stop ≤ region.span.stop ∨ range.stop ≤ region.interior.start) :
    draft.source.Clears range := by
  intro other hother hprotected
  obtain ⟨hindex, rfl⟩ := List.getElem?_eq_some_iff.mp hregion
  obtain ⟨index', hindex', rfl⟩ := List.getElem_of_mem hother
  have hupright := (h.upright _ (List.getElem_mem hindex)).interior
  have hordered := List.pairwise_iff_getElem.mp h.ordered
  rcases Nat.lt_trichotomy index' index with hlt | rfl | hgt
  · obtain ⟨-, -, hspan, hinterior⟩ := hordered index' index hindex' hindex hlt
    refine .inr (hstart.elim (fun hle => hspan.trans hle) fun hle => ?_)
    exact hinterior.trans (hupright.trans hle)
  · exact hrange hprotected
  · obtain ⟨-, hspan, -, hinterior⟩ := hordered index index' hindex hindex' hgt
    refine .inl (hstop.elim (fun hle => hle.trans hspan) fun hle => ?_)
    exact hle.trans (hupright.trans hinterior)

/-- Taking the markers of a region away keeps protected content. -/
theorem guards_unwrapRegion {report report' : PassReport} {index : Nat}
    (h : draft.source.Guards text regions)
    (hstep : unwrapRegion (draft, report) index = .ok (next, report')) :
    next.source.Guards text regions := by
  rcases unwrapRegion_eq_ok hstep with rfl | ⟨region, edit, opened, edit', hregion, hopened, hclosed⟩
  · exact h
  · have hopening : draft.source.Clears region.opening :=
      clears_of_region h hregion (fun _ => .inl (Nat.le_refl _)) (.inl (Nat.le_refl _))
        (.inr (Nat.le_refl _))
    have hguards := guards_apply h hopening hopened
    have hmoved : opened.source.regions[index]? = some (SourceText.rebaseRegion edit region) := by
      rw [regions_apply hopened, List.getElem?_map, hregion]
      rfl
    have hclosing : opened.source.Clears (SourceText.rebaseRegion edit region).closing :=
      clears_of_region hguards hmoved (fun _ => .inr (Nat.le_refl _)) (.inr (Nat.le_refl _))
        (.inl (Nat.le_refl _))
    exact guards_apply hguards hclosing hclosed

/-- Deleting a removed region keeps protected content. -/
theorem guards_removeRegion {report report' : PassReport} {index : Nat}
    (h : draft.source.Guards text regions)
    (hstep : removeRegion (draft, report) index = .ok (next, report')) :
    next.source.Guards text regions := by
  rcases removeRegion_eq_ok hstep with rfl | ⟨region, edit, hregion, hkind, hdeleted⟩
  · exact h
  · refine guards_apply h (clears_of_region h hregion (fun hprotected => ?_) (.inl (Nat.le_refl _))
      (.inl (Nat.le_refl _))) hdeleted
    rw [hkind] at hprotected
    cases hprotected

/-- Settling a tag keeps protected content. -/
theorem guards_settleTag {lines : LineTable} {report report' : PassReport} {origin : Nat}
    (h : draft.source.Guards text regions)
    (hstep : settleTag lines (draft, report) origin = .ok (next, report')) :
    next.source.Guards text regions := by
  rcases settleTag_eq_ok hstep with hsame | ⟨tag, replacement, edit, hprotected, -, hreplaced⟩
  · exact hsame ▸ h
  · exact guards_apply h (SourceText.clears_of_not_isProtected hprotected) hreplaced

/-- Stripping the prompt keeps protected content. -/
theorem guards_stripPrompt {report : PassReport} (h : draft.source.Guards text regions)
    (hstep : draft.stripPrompt = .ok (next, report)) : next.source.Guards text regions := by
  rcases stripPrompt_eq_ok hstep with rfl | ⟨range, edit, hprotected, hstripped⟩
  · exact h
  · exact guards_apply h (SourceText.clears_of_not_isProtected hprotected) hstripped

/-- Every step keeps protected content. -/
theorem guards_kept : KeptBySteps fun draft => draft.source.Guards text regions :=
  ⟨guards_unwrapRegion, guards_removeRegion, guards_settleTag, guards_stripPrompt⟩

end Draft

/-- Protected content is immune to every pass.

When a header is converted, each protected region that the scan found is still a region of the converted
text, at the same index; what its interior selects there is what the interior selected in the header. The
interiors of regions keep their order and share no byte. -/
theorem protected_content_kept (options : TransformOptions) (text : Text) {result : Transformation}
    (h : transform options text = .ok result) :
    ∃ scan draft reports, scanRegions text (scanTags text) = .ok scan ∧
      finalDraft options text = .ok (draft, reports) ∧ draft.source.current = result.text ∧
      draft.source.regions.length = scan.regions.length ∧
      (∀ (index : Nat) (given current : Region), scan.regions[index]? = some given →
        draft.source.regions[index]? = some current → current.kind = given.kind ∧
          (given.kind.isProtected = true → ∃ content, slice given.interior text = .ok content ∧
            slice current.interior result.text = .ok content)) ∧
      (scan.regions.Pairwise fun left right => left.interior.stop ≤ right.interior.start) ∧
      draft.source.regions.Pairwise fun left right => left.interior.stop ≤ right.interior.start := by
  simp only [transform, bind_eq_ok_iff] at h
  obtain ⟨⟨draft, reports⟩, hfinal, hresult⟩ := h
  obtain ⟨scan, hscan, hrun⟩ := finalDraft_eq_ok_iff.mp hfinal
  have hgiven : (Draft.ofScan text (scanTags text) scan).source.Guards text scan.regions :=
    SourceText.Guards.ofLayout (.ofScan hscan)
  have hguards := Draft.guards_kept.runAll hgiven hrun
  have hlength := hguards.kept.length_eq
  cases hresult
  refine ⟨scan, draft, reports, hscan, hfinal, rfl, hlength.symm, fun index given current hbefore hafter => ?_,
    hgiven.ordered.imp fun hprecedes => hprecedes.interiors,
    hguards.ordered.imp fun hprecedes => hprecedes.interiors⟩
  obtain ⟨hindex, rfl⟩ := List.getElem?_eq_some_iff.mp hbefore
  obtain ⟨hindex', rfl⟩ := List.getElem?_eq_some_iff.mp hafter
  obtain ⟨hkind, hkept⟩ := hguards.kept.get hindex hindex'
  refine ⟨hkind, fun hprotected => ?_⟩
  obtain ⟨content, hbefore, hafter⟩ := hkept hprotected
  exact ⟨content, hbefore.slice_eq, hafter.slice_eq⟩

/-- A header with a tag in a preserved region and a tag behind it. -/
def guardedHeader : Text := "/*[ignore begin]*//*[export]*/x/*[ignore end]*/ /*[export]*/y".toList

theorem protected_content_kept_guardedHeader : ∃ result draft reports current,
    transform {} guardedHeader = .ok result ∧ finalDraft {} guardedHeader = .ok (draft, reports) ∧
    draft.source.regions[0]? = some current ∧
    slice current.interior result.text = .ok "/*[export]*/x".toList := by
  have hconverted : (transform {} guardedHeader).toOption.isSome = true := by decide +kernel
  obtain ⟨result, hresult⟩ := Option.isSome_iff_exists.mp hconverted
  obtain ⟨scan, draft, reports, hscan, hfinal, -, hlength, hkept, -, -⟩ :=
    protected_content_kept {} guardedHeader (eq_ok_of_toOption hresult)
  have hregions : (scanRegions guardedHeader (scanTags guardedHeader)).toOption.map RegionScan.regions =
      some [⟨.preserved, ⟨0, 47⟩, ⟨18, 31⟩⟩] := by decide +kernel
  rw [hscan] at hregions
  have hgiven : scan.regions = [⟨.preserved, ⟨0, 47⟩, ⟨18, 31⟩⟩] := Option.some.inj hregions
  have hindex : 0 < draft.source.regions.length := by
    rw [hlength, hgiven]
    exact Nat.zero_lt_one
  obtain ⟨-, hcontent⟩ := hkept 0 _ _ (by rw [hgiven]; rfl) (List.getElem?_eq_getElem hindex)
  obtain ⟨content, hbefore, hafter⟩ := hcontent rfl
  have hslice : (slice ⟨18, 31⟩ guardedHeader).toOption = some "/*[export]*/x".toList := by decide +kernel
  rw [hbefore] at hslice
  rw [Option.some.inj hslice] at hafter
  exact ⟨result, draft, reports, _, eq_ok_of_toOption hresult, hfinal, List.getElem?_eq_getElem hindex, hafter⟩

end TaggedHeader
