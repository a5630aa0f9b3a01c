import TaggedHeader.Proofs.Region.Pairing

/-!
# Regions inside regions

A scan refuses a header when a tag that delimits a region stands between the two markers of another one.
The check compares bytes: a marker is nested when its span lies in the interior of a region. The borders
of an interior move by absorbed newlines, so the two notions agree only because no tag starts or ends with
a newline (`RegionAt.encloses_iff`). Where nothing is nested, the regions share no byte.
-/

namespace TaggedHeader

open Text

/-- A tag that delimits a region stands between the markers of a pair. -/
structure Nests (tags : List Tag) (first index last : Nat) : Prop where
  pair : ∃ kind, IsPair tags kind first last
  first_lt : first < index
  lt_last : index < last
  delimits : ∃ kind, Delimits tags index kind

/-- Where the tags of a text stand relative to a region. -/
structure Region.Placed (tags : List Tag) (first last : Nat) (region : Region) : Prop where
  first_le : first ≤ last
  before : ∀ {index : Nat} {tag : Tag}, tags[index]? = some tag → index < first →
    tag.span.stop ≤ region.span.start
  opener : ∀ {tag : Tag}, tags[first]? = some tag →
    region.span.start ≤ tag.span.start ∧ tag.span.start < region.interior.start
  inside : ∀ {index : Nat} {tag : Tag}, tags[index]? = some tag → first < index → index < last →
    region.interior.start ≤ tag.span.start ∧ tag.span.stop ≤ region.interior.stop
  closer : ∀ {tag : Tag}, tags[last]? = some tag →
    region.interior.stop < tag.span.stop ∧ tag.span.stop = region.span.stop
  behind : ∀ {index : Nat} {tag : Tag}, tags[index]? = some tag → last < index →
    region.span.stop ≤ tag.span.start

namespace RegionAt

variable {text : Text} {tags : List Tag} {first last : Nat} {region : Region}

/-- A region found from a pair of markers goes from the first to the last of them, but for newlines. -/
theorem bounds_of_isPair {kind : RegionKind} {opener closer : Tag} (hpair : IsPair tags kind first last)
    (hopener : tags[first]? = some opener) (hcloser : tags[last]? = some closer)
    (hregion : markedRegion text kind opener.span closer.span = .ok region) (htags : TagsIn text tags) :
    opener.StandsIn text ∧ closer.StandsIn text ∧ region.Bounds text opener.span closer.span := by
  have hfirst := htags.standsIn_of_getElem? hopener
  have hlast := htags.standsIn_of_getElem? hcloser
  obtain ⟨region', hok, -, hbounds⟩ :=
    markedRegion_bounds kind hfirst hlast (htags.stop_le_start hopener hcloser hpair.lt)
  rw [hregion] at hok
  cases hok
  exact ⟨hfirst, hlast, hbounds⟩

/-- A region found from tags fits in the text. -/
theorem fitsIn (h : RegionAt text tags first last region) (htags : TagsIn text tags) :
    region.FitsIn text := by
  cases h with
  | literal htag hliteral hinterior =>
    obtain ⟨interior, hok, hfits⟩ := literalInterior_fitsIn (htags.standsIn_of_getElem? htag) hliteral
    rw [hinterior] at hok
    cases hok
    exact hfits
  | @marked kind last opener closer region hpair hopener hcloser hregion =>
    obtain ⟨hfirst, hlast, hbounds⟩ := bounds_of_isPair hpair hopener hcloser hregion htags
    exact hbounds.fitsIn hfirst hlast

/-- The tags before, in and behind a region are clear of its borders. -/
theorem placed (h : RegionAt text tags first last region) (htags : TagsIn text tags) :
    region.Placed tags first last := by
  have hfits := h.fitsIn htags
  cases h with
  | @literal literal interior htag hliteral hinterior =>
    refine ⟨Nat.le_refl _, fun hother hlt => htags.stop_le_start hother htag hlt, fun hother => ?_,
      fun hother hgt hlt => absurd hlt (Nat.lt_asymm hgt), fun hother => ?_,
      fun hother hlt => htags.stop_le_start htag hother hlt⟩
    · rw [htag] at hother
      cases hother
      exact ⟨Nat.le_refl _, hfits.opening_lt⟩
    · rw [htag] at hother
      cases hother
      exact ⟨hfits.closing_lt, rfl⟩
  | @marked kind last opener closer region hpair hopener hcloser hregion =>
    obtain ⟨hfirst, hlast, hbounds⟩ := bounds_of_isPair hpair hopener hcloser hregion htags
    refine ⟨Nat.le_of_lt hpair.lt, fun hother hlt => ?_, fun hother => ?_, fun hother hgt hlt => ?_,
      fun hother => ?_, fun hother hlt => ?_⟩
    · exact hbounds.start.stop_le (htags.standsIn_of_getElem? hother)
        (htags.stop_le_start hother hopener hlt)
    · rw [hopener] at hother
      cases hother
      exact ⟨hbounds.start.le, hfirst.start_lt_stop.trans_le hbounds.interiorStart.le⟩
    · have hstands := htags.standsIn_of_getElem? hother
      exact ⟨hbounds.interiorStart.le_start hstands (htags.stop_le_start hopener hother hgt),
        hbounds.interiorStop.stop_le hstands (htags.stop_le_start hother hcloser hlt)⟩
    · rw [hcloser] at hother
      cases hother
      exact ⟨hbounds.interiorStop.le.trans_lt hlast.start_lt_stop, hbounds.stop.symm⟩
    · rw [hbounds.stop]
      exact htags.stop_le_start hcloser hother hlt

/-- The interior of a region holds exactly the tags between its first and its last one. -/
theorem encloses_iff (h : RegionAt text tags first last region) (htags : TagsIn text tags)
    {index : Nat} {tag : Tag} (htag : tags[index]? = some tag) :
    region.interior.encloses tag.span = true ↔ first < index ∧ index < last := by
  have hfits := h.fitsIn htags
  have hplaced := h.placed htags
  have hnonempty := (htags.standsIn_of_getElem? htag).start_lt_stop
  have hopening := hfits.opening_lt
  have hclosing := hfits.closing_lt
  simp only [Span.encloses, Bool.and_eq_true, decide_eq_true_eq]
  constructor
  · rintro ⟨hstart, hstop⟩
    constructor
    · by_contra hge
      rcases Nat.eq_or_lt_of_le (Nat.not_lt.mp hge) with rfl | hlt
      · exact absurd (hplaced.opener htag).2 (Nat.not_lt.mpr hstart)
      · have hbefore := hplaced.before htag hlt
        omega
    · by_contra hge
      rcases Nat.eq_or_lt_of_le (Nat.not_lt.mp hge) with rfl | hlt
      · exact absurd (hplaced.closer htag).1 (Nat.not_lt.mpr hstop)
      · have hbehind := hplaced.behind htag hlt
        omega
  · rintro ⟨hgt, hlt⟩
    exact hplaced.inside htag hgt hlt

/-- A pair of markers is the pair of the region that starts with it. -/
theorem last_eq (h : RegionAt text tags first last region) {kind : RegionKind} {last' : Nat}
    (hpair : IsPair tags kind first last') : last = last' := by
  cases h with
  | literal htag hliteral =>
    have hopens := hpair.opens
    rw [markerAt, htag, Option.bind_some, Directive.marker?_eq_block.mpr hliteral] at hopens
    cases hopens
  | @marked kind' last opener closer region hpair' hopener hcloser hregion =>
    have hkind := hpair'.opens
    rw [hpair.opens] at hkind
    cases hkind
    rcases Nat.lt_trichotomy last last' with hlt | heq | hgt
    · exact absurd hpair'.closes (hpair.between last hpair'.lt hlt)
    · exact heq
    · exact absurd hpair.closes (hpair'.between last' hpair.lt hgt)

/-- A region ends with a tag. -/
theorem exists_closer (h : RegionAt text tags first last region) : ∃ tag, tags[last]? = some tag := by
  cases h with
  | literal htag => exact ⟨_, htag⟩
  | marked _ _ hcloser => exact ⟨_, hcloser⟩

/-- A region with something between its first and last tag has a pair of markers. -/
theorem pair_of_lt (h : RegionAt text tags first last region) (hlt : first < last) :
    ∃ kind, IsPair tags kind first last := by
  cases h with
  | literal => exact absurd hlt (Nat.lt_irrefl _)
  | marked hpair => exact ⟨_, hpair⟩

end RegionAt

/-- The tag that a pair of markers starts with opens a region. -/
theorem Nests.opens {tags : List Tag} {first index last : Nat} (h : Nests tags first index last) :
    Opens tags first := by
  obtain ⟨kind, hpair⟩ := h.pair
  exact .inr ⟨kind, hpair.isPairedBegin⟩

namespace Pairing.Describes

variable {text : Text} {tags : List Tag} {pairing : Pairing}

/-- A marker in a region is the first one between the markers of the region. -/
theorem nests_of_find? (h : pairing.Describes text tags 0) (htags : TagsIn text tags)
    {first last : Nat} {region : Region} (hregion : RegionAt text tags first last region)
    {marker : RegionKind × Span}
    (hfind : pairing.markers.find? (fun marker => region.interior.encloses marker.2) = some marker) :
    ∃ index tag, Nests tags first index last ∧ Delimits tags index marker.1 ∧
      tags[index]? = some tag ∧ marker.2 = tag.span ∧
      ∀ earlier, earlier < index → ¬ Nests tags first earlier last := by
  rw [List.find?_eq_findSome?_guard] at hfind
  obtain ⟨index, entry, -, -, ⟨hdelimits, hspan⟩, hguard, hearlier⟩ := h.markers.exists_of_findSome? hfind
  rw [Option.guard_eq_some_iff] at hguard
  obtain ⟨rfl, hencloses⟩ := hguard
  obtain ⟨tag, htag, hspan⟩ := Option.map_eq_some_iff.mp hspan
  rw [← hspan] at hencloses
  obtain ⟨hgt, hlt⟩ := (hregion.encloses_iff htags htag).mp hencloses
  refine ⟨index, tag, ⟨hregion.pair_of_lt (hgt.trans hlt), hgt, hlt, _, hdelimits⟩, hdelimits, htag,
    hspan.symm, fun earlier hless hnests => ?_⟩
  obtain ⟨other, ⟨-, hother⟩, hnone⟩ := hearlier earlier (Nat.zero_le _) hnests.delimits hless
  obtain ⟨tag', htag', hspan'⟩ := Option.map_eq_some_iff.mp hother
  have hinside := (hregion.encloses_iff htags htag').mpr ⟨hnests.first_lt, hnests.lt_last⟩
  rw [hspan'] at hinside
  simp [Option.guard, hinside] at hnone

/-- A region without markers in it has none between its own. -/
theorem not_nests_of_find? (h : pairing.Describes text tags 0) (htags : TagsIn text tags)
    {first last : Nat} {region : Region} (hregion : RegionAt text tags first last region)
    (hfind : pairing.markers.find? (fun marker => region.interior.encloses marker.2) = none)
    (index last' : Nat) : ¬ Nests tags first index last' := by
  intro hnests
  obtain ⟨kind, hpair⟩ := hnests.pair
  obtain rfl := hregion.last_eq hpair
  obtain ⟨marker, hmem, -, hspan⟩ := h.markers.exists_entry (Nat.zero_le index) hnests.delimits
  obtain ⟨tag, htag, hspan⟩ := Option.map_eq_some_iff.mp hspan
  have hinside := (hregion.encloses_iff htags htag).mpr ⟨hnests.first_lt, hnests.lt_last⟩
  have hclear := List.find?_eq_none.mp hfind marker hmem
  rw [← hspan] at hclear
  exact hclear hinside

/-- The check finds the first region with a marker in it, and the first marker in it. -/
theorem nests_of_nesting? (h : pairing.Describes text tags 0) (htags : TagsIn text tags)
    {region : Region} {kind : RegionKind} {span : Span}
    (hnesting : pairing.nesting? = some (region, kind, span)) :
    ∃ first index last tag, Nests tags first index last ∧ RegionAt text tags first last region ∧
      Delimits tags index kind ∧ tags[index]? = some tag ∧ span = tag.span ∧
      (∀ earlier, earlier < first → ∀ index' last', ¬ Nests tags earlier index' last') ∧
      ∀ earlier, earlier < index → ¬ Nests tags first earlier last := by
  obtain ⟨first, region', -, -, ⟨last, hregion⟩, hfind, hearlier⟩ :=
    h.regions.exists_of_findSome? hnesting
  obtain ⟨marker, hmarker, heq⟩ := Option.map_eq_some_iff.mp hfind
  cases heq
  obtain ⟨index, tag, hnests, hdelimits, htag, hspan, hleast⟩ := h.nests_of_find? htags hregion hmarker
  refine ⟨first, index, last, tag, hnests, hregion, hdelimits, htag, hspan,
    fun earlier hlt index' last' hother => ?_, hleast⟩
  obtain ⟨other, ⟨last'', hother'⟩, hnone⟩ := hearlier earlier (Nat.zero_le _) hother.opens hlt
  exact h.not_nests_of_find? htags hother' (Option.map_eq_none_iff.mp hnone) index' last' hother

/-- The check finds nothing only where nothing is nested. -/
theorem not_nests_of_nesting? (h : pairing.Describes text tags 0) (htags : TagsIn text tags)
    (hnesting : pairing.nesting? = none) (first index last : Nat) : ¬ Nests tags first index last := by
  intro hnests
  obtain ⟨region, hmem, last', hregion⟩ := h.regions.exists_entry (Nat.zero_le first) hnests.opens
  have hnone := List.findSome?_eq_none_iff.mp hnesting region hmem
  exact h.not_nests_of_find? htags hregion (Option.map_eq_none_iff.mp hnone) index last hnests

/-- Regions share no byte where nothing is nested. -/
theorem regions_disjoint (h : pairing.Describes text tags 0) (htags : TagsIn text tags)
    (hnone : ∀ first index last, ¬ Nests tags first index last) :
    pairing.regions.Pairwise fun left right => left.span.stop ≤ right.span.start := by
  refine h.regions.pairwise fun i j _ hj hlt left right hleft hright => ?_
  obtain ⟨last, hleft⟩ := hleft
  obtain ⟨last', hright⟩ := hright
  obtain ⟨closer, hcloser⟩ := hleft.exists_closer
  -- The second region begins behind the end of the first: between its markers it would be nested.
  have hbehind : last < j := by
    by_contra hge
    rcases Nat.eq_or_lt_of_le (Nat.not_lt.mp hge) with rfl | hinside
    · obtain ⟨kind, hpair⟩ := hleft.pair_of_lt hlt
      simpa [hpair.closes] using hj.marker
    · exact hnone i j last ⟨hleft.pair_of_lt (hlt.trans hinside), hlt, hinside, hj.delimits⟩
  rw [← ((hleft.placed htags).closer hcloser).2]
  exact (hright.placed htags).before hcloser hbehind

end Pairing.Describes

/-- A scan pairs the markers, and refuses the header when the check finds something. -/
theorem scanRegions_eq {text : Text} {tags : List Tag} {pairing : Pairing}
    (h : pairMarkers text (.ofText text) [] tags = .ok pairing) :
    scanRegions text tags = match pairing.nesting? with
      | some (region, kind, marker) => .error (.nestedRegion kind region.span marker)
      | none => .ok ⟨pairing.regions,
        (pairing.unpaired.filter fun entry => !inSomeRegion pairing.regions entry.1).map Prod.snd⟩ := by
  simp only [scanRegions, h, TransformError.ofRange, Except.mapError, bind, Except.bind]
  cases pairing.nesting? <;> rfl

/-- Pairing the markers of a header succeeds, and describes its tags. -/
theorem exists_pairing (text : Text) : ∃ pairing,
    pairMarkers text (.ofText text) [] (scanTags text) = .ok pairing ∧
      pairing.Describes text (scanTags text) 0 :=
  pairMarkers_describes (scanTags_tagsIn text) (List.drop_zero ..) (AreOpenAt.zero _)

/-- Pairing of regions and the nesting error are exact.

A scan of a header fails exactly when a literal block, a paired begin or a paired end marker stands between
the markers of a pair. The error then names the region of the earliest such pair, and the kind and span of
the leftmost such tag in it. Otherwise every literal block and every paired begin marker has one region, the
regions come in order and share no byte, and each has its interior between two markers of its own. -/
theorem scanRegions_exact (text : Text) :
    ((∃ kind outer inner, scanRegions text (scanTags text) = .error (.nestedRegion kind outer inner)) ↔
      ∃ first index last, Nests (scanTags text) first index last) ∧
    (∀ kind outer inner, scanRegions text (scanTags text) = .error (.nestedRegion kind outer inner) →
      ∃ first index last region tag, Nests (scanTags text) first index last ∧
        (∀ earlier, earlier < first → ∀ index' last', ¬ Nests (scanTags text) earlier index' last') ∧
        (∀ earlier, earlier < index → ¬ Nests (scanTags text) first earlier last) ∧
        RegionAt text (scanTags text) first last region ∧ outer = region.span ∧
        (scanTags text)[index]? = some tag ∧ inner = tag.span ∧ Delimits (scanTags text) index kind) ∧
    ((∀ first index last, ¬ Nests (scanTags text) first index last) →
      ∃ scan, scanRegions text (scanTags text) = .ok scan ∧
        Enumerates 0 (Opens (scanTags text))
          (fun first region => ∃ last, RegionAt text (scanTags text) first last region) scan.regions ∧
        (scan.regions.Pairwise fun left right => left.span.stop ≤ right.span.start) ∧
        ∀ region ∈ scan.regions, region.FitsIn text ∧ region.span.stop ≤ size text ∧
          region.opening.start < region.opening.stop ∧ region.closing.start < region.closing.stop) := by
  have htags := scanTags_tagsIn text
  obtain ⟨pairing, hpairing, hdescribes⟩ := exists_pairing text
  have hscan := scanRegions_eq hpairing
  cases hnesting : pairing.nesting? with
  | none =>
    have hnone := hdescribes.not_nests_of_nesting? htags hnesting
    rw [hnesting] at hscan
    refine ⟨⟨?_, ?_⟩, ?_, fun _ => ⟨_, hscan, hdescribes.regions,
      hdescribes.regions_disjoint htags hnone, fun region hregion => ?_⟩⟩
    · rintro ⟨kind, outer, inner, herror⟩
      rw [hscan] at herror
      cases herror
    · rintro ⟨first, index, last, hnests⟩
      exact absurd hnests (hnone first index last)
    · intro kind outer inner herror
      rw [hscan] at herror
      cases herror
    · obtain ⟨first, -, -, last, hat⟩ := hdescribes.regions.exists_index hregion
      have hfits := hat.fitsIn htags
      exact ⟨hfits, hfits.isBoundary_stop.le_size, hfits.opening_lt, hfits.closing_lt⟩
  | some found =>
    obtain ⟨region, kind, marker⟩ := found
    obtain ⟨first, index, last, tag, hnests, hregion, hdelimits, htag, hspan, hfirst, hindex⟩ :=
      hdescribes.nests_of_nesting? htags hnesting
    rw [hnesting] at hscan
    refine ⟨⟨fun _ => ⟨first, index, last, hnests⟩, fun _ => ⟨_, _, _, hscan⟩⟩, ?_,
      fun hnone => absurd hnests (hnone first index last)⟩
    intro kind' outer inner herror
    rw [hscan] at herror
    cases herror
    exact ⟨first, index, last, region, tag, hnests, hfirst, hindex, hregion, rfl, htag, hspan, hdelimits⟩

end TaggedHeader
