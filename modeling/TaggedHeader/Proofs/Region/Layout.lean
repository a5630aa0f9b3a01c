import Mathlib.Data.List.Nodup
import Mathlib.Data.List.Pairwise
import TaggedHeader.Proofs.Region.Nesting

/-!
# The layout of a header

A scan that succeeds lays a header out: its tags and its regions stand in order, and each tag lies outside a
region, in the interior of the region, or is one of its markers. The passes are studied over such a layout.
-/

namespace TaggedHeader

open Text

section Ordered

variable {α : Type} {items : List α} {span : α → Span}

/-- Items whose spans stand in order share no byte with each other. -/
theorem apart_of_ordered (h : items.Pairwise fun first second => (span first).stop ≤ (span second).start)
    {first second : α} (hfirst : first ∈ items) (hsecond : second ∈ items) (hne : first ≠ second) :
    (span first).Apart (span second) := by
  have hsymm : Std.Symm fun first second => (span first).Apart (span second) :=
    ⟨fun _ _ => Span.Apart.symm⟩
  have hapart : items.Pairwise fun first second => (span first).Apart (span second) := h.imp .inl
  exact hapart.forall hfirst hsecond hne

/-- Items whose spans stand in order and have bytes are different. -/
theorem nodup_of_ordered (h : items.Pairwise fun first second => (span first).stop ≤ (span second).start)
    (hlt : ∀ item ∈ items, (span item).start < (span item).stop) : items.Nodup := by
  refine h.imp_of_mem fun {first second} hfirst _ hle heq => ?_
  have hnonempty := hlt first hfirst
  rw [heq] at hle hnonempty
  omega

/-- An item is none of those before it. -/
theorem ne_of_mem_take (h : items.Nodup) {index : Nat} (hindex : index < items.length) {other : α}
    (hother : other ∈ items.take index) : other ≠ items[index] := by
  obtain ⟨index', hindex', rfl⟩ := List.getElem_of_mem hother
  rw [List.length_take, Nat.lt_min] at hindex'
  rw [List.getElem_take, Ne, h.getElem_inj_iff]
  exact Nat.ne_of_lt hindex'.1

end Ordered

/-- How a tag can lie relative to a region. -/
inductive Region.Locates (region : Region) (span : Span) : Prop
  | outside (happart : span.Apart region.span)
  | inside (henclosed : region.interior.encloses span = true)
  | marker (henclosed : region.span.encloses span = true)
    (htouched : ¬ span.Apart region.opening ∨ ¬ span.Apart region.closing)

/-- A text with its tags and regions, as a scan that succeeds finds them. -/
structure Layout where
  text : Text
  tags : List Tag
  regions : List Region
  tagsIn : TagsIn text tags
  fitsIn : ∀ region ∈ regions, region.FitsIn text
  ordered : regions.Pairwise fun left right => left.span.stop ≤ right.span.start
  locates : ∀ region ∈ regions, ∀ tag ∈ tags, region.Locates tag.span

/-- Every tag is located by the index of the region's first and last tag. -/
theorem Region.Placed.locates {text : Text} {tags : List Tag} {first last : Nat} {region : Region}
    (h : region.Placed tags first last) (htags : TagsIn text tags) {closer : Tag}
    (hcloser : tags[last]? = some closer) {index : Nat} {tag : Tag} (htag : tags[index]? = some tag) :
    region.Locates tag.span := by
  have hnonempty := (htags.standsIn_of_getElem? htag).start_lt_stop
  rcases Nat.lt_trichotomy index first with hlt | rfl | hgt
  · exact .outside (.inl (h.before htag hlt))
  · obtain ⟨hstart, hless⟩ := h.opener htag
    have hstop : tag.span.stop ≤ region.span.stop := by
      rw [← (h.closer hcloser).2]
      rcases Nat.eq_or_lt_of_le h.first_le with rfl | hlt
      · rw [htag] at hcloser
        cases hcloser
        exact Nat.le_refl _
      · exact (htags.stop_le_start htag hcloser hlt).trans
          (Nat.le_of_lt (htags.standsIn_of_getElem? hcloser).start_lt_stop)
    refine .marker (by simp [Span.encloses, hstart, hstop]) (.inl ?_)
    simp only [Span.Apart, Region.opening]
    omega
  · rcases Nat.lt_trichotomy index last with hlt | rfl | hbehind
    · obtain ⟨hstart, hstop⟩ := h.inside htag hgt hlt
      exact .inside (by simp [Span.encloses, hstart, hstop])
    · obtain ⟨hless, hstop⟩ := h.closer htag
      have hlength : first < tags.length := hgt.trans (List.getElem?_eq_some_iff.mp htag).1
      have hopener := List.getElem?_eq_getElem hlength
      have hstart : region.span.start ≤ tag.span.start :=
        (h.opener hopener).1.trans ((Nat.le_of_lt (htags.standsIn_of_getElem? hopener).start_lt_stop).trans
          (htags.stop_le_start hopener htag hgt))
      refine .marker (by simp [Span.encloses, hstart, hstop]) (.inr ?_)
      simp only [Span.Apart, Region.closing]
      omega
    · exact .outside (.inr (h.behind htag hbehind))

/-- A scan that succeeds found nothing nested, and returns the regions of the pairing. -/
theorem exists_pairing_of_scanRegions {text : Text} {scan : RegionScan}
    (h : scanRegions text (scanTags text) = .ok scan) :
    ∃ pairing : Pairing, pairing.Describes text (scanTags text) 0 ∧ pairing.nesting? = none ∧
      scan.regions = pairing.regions := by
  obtain ⟨pairing, hpairing, hdescribes⟩ := exists_pairing text
  rw [scanRegions_eq hpairing] at h
  cases hnesting : pairing.nesting? with
  | none =>
    rw [hnesting] at h
    cases h
    exact ⟨pairing, hdescribes, hnesting, rfl⟩
  | some found =>
    rw [hnesting] at h
    cases h

/-- The layout of a text that is scanned with success. -/
def Layout.ofScan {text : Text} {scan : RegionScan} (h : scanRegions text (scanTags text) = .ok scan) :
    Layout where
  text
  tags := scanTags text
  regions := scan.regions
  tagsIn := scanTags_tagsIn text
  fitsIn := by
    obtain ⟨pairing, hdescribes, -, hregions⟩ := exists_pairing_of_scanRegions h
    intro region hregion
    rw [hregions] at hregion
    obtain ⟨first, -, -, last, hat⟩ := hdescribes.regions.exists_index hregion
    exact hat.fitsIn (scanTags_tagsIn text)
  ordered := by
    obtain ⟨pairing, hdescribes, hnesting, hregions⟩ := exists_pairing_of_scanRegions h
    rw [hregions]
    exact hdescribes.regions_disjoint (scanTags_tagsIn text)
      (hdescribes.not_nests_of_nesting? (scanTags_tagsIn text) hnesting)
  locates := by
    obtain ⟨pairing, hdescribes, -, hregions⟩ := exists_pairing_of_scanRegions h
    intro region hregion tag htag
    rw [hregions] at hregion
    obtain ⟨first, -, -, last, hat⟩ := hdescribes.regions.exists_index hregion
    obtain ⟨index, hindex, rfl⟩ := List.getElem_of_mem htag
    obtain ⟨closer, hcloser⟩ := hat.exists_closer
    exact (hat.placed (scanTags_tagsIn text)).locates (scanTags_tagsIn text) hcloser
      (List.getElem?_eq_getElem hindex)

namespace Layout

variable (layout : Layout) {region : Region} {tag : Tag}

/-- A tag in a region is no further than its borders, and a tag that is not in it shares no byte with it. -/
theorem encloses_iff (hregion : region ∈ layout.regions) (htag : tag ∈ layout.tags) :
    region.span.encloses tag.span = true ↔ ¬ tag.span.Apart region.span := by
  have hfits := layout.fitsIn region hregion
  have hnonempty := (layout.tagsIn.standsIn tag htag).start_lt_stop
  have hopening := hfits.opening_lt
  have hclosing := hfits.closing_lt
  have hlocates := layout.locates region hregion tag htag
  simp only [Span.encloses, Bool.and_eq_true, decide_eq_true_eq, Span.Apart]
  cases hlocates with
  | outside happart =>
    simp only [Span.Apart] at happart
    omega
  | inside henclosed =>
    simp only [Span.encloses, Bool.and_eq_true, decide_eq_true_eq] at henclosed
    omega
  | marker henclosed =>
    simp only [Span.encloses, Bool.and_eq_true, decide_eq_true_eq] at henclosed
    omega

/-- Two regions of a header share no byte. -/
theorem regions_apart {other : Region} (hregion : region ∈ layout.regions) (hother : other ∈ layout.regions)
    (hne : region ≠ other) : region.span.Apart other.span :=
  apart_of_ordered layout.ordered hregion hother hne

/-- Two tags of a header share no byte. -/
theorem tags_apart {other : Tag} (htag : tag ∈ layout.tags) (hother : other ∈ layout.tags)
    (hne : tag ≠ other) : tag.span.Apart other.span :=
  apart_of_ordered layout.tagsIn.ordered htag hother hne

/-- A tag lies behind the end of another tag or before it, or is the same one. -/
theorem stop_le_or_le_start {other : Tag} (htag : tag ∈ layout.tags) (hother : other ∈ layout.tags) :
    tag.span.stop ≤ other.span.stop ∨ other.span.stop ≤ tag.span.start := by
  by_cases heq : tag = other
  · exact .inl (heq ▸ Nat.le_refl _)
  · have hlt := (layout.tagsIn.standsIn other hother).start_lt_stop
    exact (layout.tags_apart htag hother heq).imp (fun hle => hle.trans (Nat.le_of_lt hlt)) id

theorem regions_nodup : layout.regions.Nodup := by
  refine nodup_of_ordered layout.ordered fun region hregion => ?_
  obtain ⟨-, -, -, -, hopening, hinterior, hclosing⟩ := layout.fitsIn region hregion
  exact hopening.trans (hinterior.trans_lt hclosing)

theorem tags_nodup : layout.tags.Nodup :=
  nodup_of_ordered layout.tagsIn.ordered fun tag htag => (layout.tagsIn.standsIn tag htag).start_lt_stop

end Layout
end TaggedHeader
