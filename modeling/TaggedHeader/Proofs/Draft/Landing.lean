import TaggedHeader.Proofs.Draft.Pending

/-!
# Where regions come to rest

Once the regions are gone, a protected region with content still has a range with bytes, and every other
region has shrunk to an empty range. A range with bytes goes where the sweep puts it. An empty range gives way
to the text that takes the place of a tag: when a tag that starts where the range stands is settled, the
range lands behind it. Where it ends up therefore depends on the order in which adjoining tags are settled.

`landing` follows an empty range through a list of tags, and `Layout.Rests` says that the regions of a draft
are where this leads. `landing_filter` is what remains true of every order: only the tags that adjoin the
range matter.
-/

namespace TaggedHeader

open Text Substitution

/-- Where an empty range at a position lands when tags are settled, the latest first in the list: behind each
of them that starts where the range stands at that time. -/
def landing : List Tag → (position : Nat) → Nat
  | [], position => position
  | tag :: earlier, position =>
    if tag.span.start = landing earlier position then tag.span.stop else landing earlier position

/-- The tags that follow a position with nothing between them and it but other such tags. -/
inductive Adjoins (tags : List Tag) (position : Nat) : Tag → Prop
  | first {tag : Tag} (hmem : tag ∈ tags) (hstart : tag.span.start = position) : Adjoins tags position tag
  | next {tag tag' : Tag} (h : Adjoins tags position tag) (hmem : tag' ∈ tags)
      (hstart : tag'.span.start = tag.span.stop) : Adjoins tags position tag'

/-- An empty range is where it was or behind a tag that adjoins it. -/
theorem landing_eq_or_adjoins {tags settled : List Tag} (hsubset : ∀ tag ∈ settled, tag ∈ tags)
    (position : Nat) : landing settled position = position ∨
      ∃ tag, Adjoins tags position tag ∧ landing settled position = tag.span.stop := by
  induction settled with
  | nil => exact .inl rfl
  | cons tag earlier ih =>
    obtain ⟨htag, hsubset⟩ := List.forall_mem_cons.mp hsubset
    rw [landing]
    split
    · rename_i hstart
      refine .inr ⟨tag, ?_, rfl⟩
      rcases ih hsubset with hsame | ⟨before, hbefore, hlanded⟩
      · exact .first htag (hstart.trans hsame)
      · exact .next hbefore htag (hstart.trans hlanded)
    · exact ih hsubset

/-- Only the tags that adjoin an empty range decide where it lands. -/
theorem landing_filter {tags settled : List Tag} (hsubset : ∀ tag ∈ settled, tag ∈ tags) (position : Nat)
    (p : Tag → Bool) (hp : ∀ tag, Adjoins tags position tag → p tag = true) :
    landing (settled.filter p) position = landing settled position := by
  induction settled with
  | nil => rfl
  | cons tag earlier ih =>
    obtain ⟨htag, hsubset⟩ := List.forall_mem_cons.mp hsubset
    by_cases hstart : tag.span.start = landing earlier position
    · have hadjoins : Adjoins tags position tag := by
        rcases landing_eq_or_adjoins hsubset position with hsame | ⟨before, hbefore, hlanded⟩
        · exact .first htag (hstart.trans hsame)
        · exact .next hbefore htag (hstart.trans hlanded)
      rw [List.filter_cons_of_pos (hp tag hadjoins), landing, landing, ih hsubset]
    · have hkept : landing (tag :: earlier) position = landing earlier position := if_neg hstart
      rw [hkept, ← ih hsubset, List.filter_cons]
      split
      · rw [landing, ih hsubset, if_neg hstart]
      · rfl

/-- What is left of a region when the regions are gone: its content if that is protected, and otherwise the
place where it started. -/
def Region.remnant (region : Region) : Span :=
  if region.kind.isProtected then region.interior else ⟨region.span.start, region.span.start⟩

/-- A position that no tag outside the regions straddles. -/
structure Layout.IsFree (layout : Layout) (position : Nat) : Prop where
  boundary : IsBoundary layout.text position
  clear : ∀ tag ∈ layout.tags, inSomeRegion layout.regions tag.span = false →
    tag.span.stop ≤ position ∨ position ≤ tag.span.start

namespace Layout

variable {layout : Layout} {region : Region} {settled : List Tag}

/-- What is left of a region lies in it. -/
theorem remnant_within (hregion : region ∈ layout.regions) : region.span.start ≤ region.remnant.start ∧
    region.remnant.start ≤ region.remnant.stop ∧ region.remnant.stop ≤ region.span.stop ∧
    IsBoundary layout.text region.remnant.start ∧ IsBoundary layout.text region.remnant.stop := by
  obtain ⟨hstart, hinnerStart, hinnerStop, -, hopening, hinterior, hclosing⟩ := layout.fitsIn region hregion
  rw [Region.remnant]
  split
  · exact ⟨Nat.le_of_lt hopening, hinterior, Nat.le_of_lt hclosing, hinnerStart, hinnerStop⟩
  · refine ⟨Nat.le_refl _, Nat.le_refl _, ?_, hstart, hstart⟩
    simp only
    omega

/-- No tag outside the regions straddles the place of a region. -/
theorem isFree_remnant (hregion : region ∈ layout.regions) : layout.IsFree region.remnant.start := by
  obtain ⟨hlow, hle, hhigh, hboundary, -⟩ := remnant_within hregion
  refine ⟨hboundary, fun tag htag houtside => ?_⟩
  exact ((outside_iff htag).mp houtside region hregion).imp (fun hbefore => hbefore.trans hlow)
    (fun hbehind => (hle.trans hhigh).trans hbehind)

/-- No tag straddles the start of another one. -/
theorem isFree_start {tag : Tag} (htag : tag ∈ layout.tags) : layout.IsFree tag.span.start := by
  have hstands := layout.tagsIn.standsIn tag htag
  refine ⟨hstands.isBoundary_start, fun other hother _ => ?_⟩
  by_cases heq : other = tag
  · exact .inr (heq ▸ Nat.le_refl _)
  · exact (layout.tags_apart hother htag heq).imp id fun hbehind =>
      (Nat.le_of_lt hstands.start_lt_stop).trans hbehind

/-- No tag straddles the end of another one. -/
theorem isFree_stop {tag : Tag} (htag : tag ∈ layout.tags) : layout.IsFree tag.span.stop :=
  ⟨(layout.tagsIn.standsIn tag htag).isBoundary_stop, fun _ hother _ =>
    layout.stop_le_or_le_start hother htag⟩

/-- Settling tags keeps free positions apart that were apart when the regions were gone, and together those
that were together. -/
theorem place_eq_iff (hfits : ∀ sub ∈ layout.substitutions settled, sub.FitsIn layout.text)
    (hapart : (layout.substitutions settled).Pairwise fun first second => first.span.Apart second.span)
    (hsettled : ∀ tag ∈ settled, tag ∈ layout.tags ∧ inSomeRegion layout.regions tag.span = false)
    {first second : Nat} (hfirst : layout.IsFree first) (hsecond : layout.IsFree second) :
    place (layout.substitutions settled) layout.text first =
        place (layout.substitutions settled) layout.text second ↔
      place (cuts layout.regions) layout.text first = place (cuts layout.regions) layout.text second := by
  refine place_eq_append_iff hfits hapart hfirst.boundary hsecond.boundary fun sub hsub => ?_
  obtain ⟨tag, htag, interface, hinterface, rfl⟩ := mem_settlements.mp hsub
  obtain ⟨hmem, houtside⟩ := hsettled tag htag
  refine ⟨?_, hfirst.clear tag hmem houtside, hsecond.clear tag hmem houtside⟩
  rintro rfl
  cases startsVisible_of_interface? hinterface

/-- When the regions are gone, both ranges of a region are what is left of it. -/
theorem placed_cuts (hfits : ∀ sub ∈ cuts layout.regions, sub.FitsIn layout.text)
    (hapart : (cuts layout.regions).Pairwise fun first second => first.span.Apart second.span)
    (hregion : region ∈ layout.regions) :
    placeSpan (cuts layout.regions) layout.text region.span =
        placeSpan (cuts layout.regions) layout.text region.remnant ∧
      placeSpan (cuts layout.regions) layout.text region.interior =
        placeSpan (cuts layout.regions) layout.text region.remnant := by
  obtain ⟨hstart, hinnerStart, hinnerStop, hstop, hopening, hinterior, hclosing⟩ :=
    layout.fitsIn region hregion
  have hcut : ∀ cut ∈ region.cuts, cut.text = [] → ∀ position, IsBoundary layout.text position →
      cut.span.start ≤ position → position ≤ cut.span.stop →
      place (cuts layout.regions) layout.text position =
        place (cuts layout.regions) layout.text cut.span.start := fun cut hmem htext _ =>
    place_eq_of_cut (List.mem_flatMap.mpr ⟨region, hregion, hmem⟩) htext hfits hapart
  rw [Region.remnant]
  split
  · rename_i hprotected
    have hcuts : region.cuts = [⟨region.opening, []⟩, ⟨region.closing, []⟩] := if_pos hprotected
    have hopened := hcut ⟨region.opening, []⟩ (by simp [hcuts]) rfl region.interior.start hinnerStart
      (Nat.le_of_lt hopening) (Nat.le_refl _)
    have hclosed := hcut ⟨region.closing, []⟩ (by simp [hcuts]) rfl region.span.stop hstop
      (Nat.le_of_lt hclosing) (Nat.le_refl _)
    simp only [Region.opening] at hopened
    simp only [Region.closing] at hclosed
    simp only [placeSpan, hopened, hclosed, and_self]
  · rename_i hprotected
    have hcuts : region.cuts = [⟨region.span, []⟩] := if_neg hprotected
    have hgone := hcut ⟨region.span, []⟩ (by simp [hcuts]) rfl
    simp only at hgone
    simp only [placeSpan, hgone _ hinnerStart (by omega) (by omega), hgone _ hinnerStop (by omega) (by omega),
      hgone _ hstop (by omega) (by omega), and_self]

end Layout

/-- How a region of a draft follows what is left of the region of the header while tags are settled, the
latest first: content goes where the sweep puts it, and an empty range to its landing. -/
structure Layout.Rests (layout : Layout) (settled : List Tag) (given current : Region) : Prop where
  kind : current.kind = given.kind
  whole : current.span = current.interior
  content : given.remnant.start < given.remnant.stop →
    current.interior = placeSpan (layout.substitutions settled) layout.text given.remnant
  empty : given.remnant.start = given.remnant.stop → ∃ position, layout.IsFree position ∧
    place (cuts layout.regions) layout.text position =
      landing (settled.map (Tag.placed (cuts layout.regions) layout.text))
        (place (cuts layout.regions) layout.text given.remnant.start) ∧
    current.interior = placeSpan (layout.substitutions settled) layout.text ⟨position, position⟩

namespace Layout

variable {layout : Layout} {settled : List Tag} {given current : Region}

/-- When the regions are gone, what is left of a region is where it was. -/
theorem rests_cuts (hfits : ∀ sub ∈ cuts layout.regions, sub.FitsIn layout.text)
    (hapart : (cuts layout.regions).Pairwise fun first second => first.span.Apart second.span)
    (hgiven : given ∈ layout.regions) :
    Layout.Rests layout [] given (given.placed (cuts layout.regions) layout.text) := by
  obtain ⟨hspan, hinterior⟩ := placed_cuts hfits hapart hgiven
  refine ⟨rfl, hspan.trans hinterior.symm, fun _ => hinterior, fun hempty => ?_⟩
  have hremnant : given.remnant = ⟨given.remnant.start, given.remnant.start⟩ :=
    congrArg (Span.mk given.remnant.start) hempty.symm
  refine ⟨given.remnant.start, isFree_remnant hgiven, rfl, ?_⟩
  rw [← hremnant]
  exact hinterior

/-- Settling a further tag moves a region to where it is to rest then. -/
theorem rests_settle {tag : Tag} {interface : Text} {edit : Edit}
    (hfits : ∀ sub ∈ layout.substitutions settled, sub.FitsIn layout.text)
    (hapart : (layout.substitutions settled).Pairwise fun first second => first.span.Apart second.span)
    (hsettled : ∀ tag ∈ settled, tag ∈ layout.tags ∧ inSomeRegion layout.regions tag.span = false)
    (htag : tag ∈ layout.tags) (houtside : inSomeRegion layout.regions tag.span = false)
    (hspare : Spare (layout.substitutions settled) tag.span)
    (hsubs : layout.substitutions (tag :: settled) = ⟨tag.span, interface⟩ :: layout.substitutions settled)
    (hmakes : Makes layout.text (layout.substitutions settled) ⟨tag.span, interface⟩ edit)
    (hgiven : given ∈ layout.regions)
    (hcontent : given.kind.isProtected = true → Spare (layout.substitutions settled) given.interior)
    (h : Layout.Rests layout settled given current) :
    Layout.Rests layout (tag :: settled) given (SourceText.rebaseRegion edit current) := by
  have hstands := layout.tagsIn.standsIn tag htag
  have hadmits : Admits layout.text (layout.substitutions settled) ⟨tag.span, interface⟩ :=
    ⟨hfits, ⟨hstands.isBoundary_start, hstands.isBoundary_stop, hstands.start_lt_stop⟩, hspare⟩
  obtain ⟨hlow, -, hhigh, hstart, hstop⟩ := remnant_within hgiven
  refine ⟨h.kind, congrArg edit.mapRange h.whole, fun hlt => ?_, fun hempty => ?_⟩
  · have hprotected : given.kind.isProtected = true := by
      by_contra hremoved
      simp [Region.remnant, hremoved] at hlt
    have hremnant : given.remnant = given.interior := if_pos hprotected
    have hclear : tag.span.Apart given.remnant :=
      ((outside_iff htag).mp houtside given hgiven).of_encloses ⟨Nat.le_refl _, Nat.le_refl _⟩
        ⟨hlow, hhigh⟩
    simp only [SourceText.rebaseRegion]
    rw [h.content hlt, hsubs]
    exact hadmits.mapRange_spare hmakes hstart hstop hlt (hremnant ▸ hcontent hprotected) hclear
  · obtain ⟨position, hfree, hlanded, hcurrent⟩ := h.empty hempty
    have hiff := place_eq_iff hfits hapart hsettled (isFree_start htag) hfree
    simp only [SourceText.rebaseRegion, List.map_cons, landing, Tag.placed, placeSpan, ← hlanded]
    rw [hcurrent, hsubs]
    by_cases hmeets : place (cuts layout.regions) layout.text tag.span.start =
        place (cuts layout.regions) layout.text position
    · rw [if_pos hmeets]
      exact ⟨tag.span.stop, isFree_stop htag, rfl,
        hadmits.mapRange_empty hmakes (hiff.mpr hmeets).symm⟩
    · rw [if_neg hmeets]
      refine ⟨position, hfree, rfl, ?_⟩
      rcases hfree.clear tag htag houtside with hbehind | hbefore
      · exact hadmits.mapRange_behind hmakes hfree.boundary hfree.boundary (Nat.le_refl _) hbehind
      · have hmono := place_mono (layout.substitutions settled) hfree.boundary hstands.isBoundary_start hbefore
        have hlt := Nat.lt_of_le_of_ne hmono fun heq => hmeets (hiff.mp heq.symm)
        exact hadmits.mapRange_before hmakes hfree.boundary hfree.boundary (Nat.le_refl _) hbefore hlt

end Layout
end TaggedHeader
