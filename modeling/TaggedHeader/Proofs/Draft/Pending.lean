import TaggedHeader.Proofs.Draft.Cutting

/-!
# Tags that are still pending

When the regions are gone, a pending tag lies outside all regions or is protected content. A pass asks a
draft about such a tag: where it is, whether it is protected, which character follows. The answers are those
that the header gives. The character that follows may be part of a tag that was settled before, but a tag
and the text that takes its place both start with a character that is no blank.
-/

namespace TaggedHeader

open Text Substitution

/-- Whether a text starts with a character that is no blank. -/
def startsVisible (text : Text) : Bool := text.head?.any (!isBlank ·)

/-- Whether a character that is no blank follows a position, once the regions are taken away. -/
def isFollowedByVisible (text : Text) (regions : List Region) (position : Nat) : Bool :=
  startsVisible (sweep (cuts regions) position (behind position text))

/-- The text that takes the place of a tag in the interface of a header. -/
def Tag.interface? (text : Text) (regions : List Region) (tag : Tag) : Option Text :=
  match tag.directive with
  | .exportDeclaration =>
    if isFollowedByVisible text regions tag.span.stop then some (Keyword.exportWord ++ [' '])
    else some Keyword.exportWord
  | directive => directive.render?

theorem Tag.interface?_of_export {tag : Tag} (h : tag.directive = .exportDeclaration) (text : Text)
    (regions : List Region) : tag.interface? text regions =
      if isFollowedByVisible text regions tag.span.stop then some (Keyword.exportWord ++ [' '])
      else some Keyword.exportWord := by
  simp only [Tag.interface?, h]

theorem Tag.interface?_of_ne {tag : Tag} (h : tag.directive ≠ .exportDeclaration) (text : Text)
    (regions : List Region) : tag.interface? text regions = tag.directive.render? := by
  unfold Tag.interface?
  split
  · contradiction
  · rfl

/-- The substitutions that settle tags. -/
def settlements (text : Text) (regions : List Region) (tags : List Tag) : List Substitution :=
  tags.filterMap fun tag => (tag.interface? text regions).map fun interface => ⟨tag.span, interface⟩

theorem mem_settlements {text : Text} {regions : List Region} {tags : List Tag} {sub : Substitution} :
    sub ∈ settlements text regions tags ↔ ∃ tag ∈ tags, ∃ interface,
      tag.interface? text regions = some interface ∧ sub = ⟨tag.span, interface⟩ := by
  simp only [settlements, List.mem_filterMap, Option.map_eq_some_iff, @eq_comm _ _ sub]

/-- The substitutions of a header whose regions are gone and in which some tags are settled. -/
def Layout.substitutions (layout : Layout) (settled : List Tag) : List Substitution :=
  settlements layout.text layout.regions settled ++ cuts layout.regions

/-- Replacing a part that starts with a visible character by another one does not change how a text starts. -/
theorem startsVisible_append {left part part' right right' : Text} (hpart : startsVisible part = true)
    (hpart' : startsVisible part' = true) :
    startsVisible (left ++ part ++ right) = startsVisible (left ++ part' ++ right') := by
  cases left with
  | nil =>
    cases part with
    | nil => cases hpart
    | cons c rest =>
      cases part' with
      | nil => cases hpart'
      | cons c' rest' => exact hpart.trans hpart'.symm
  | cons c rest => rfl

/-- One more substitution of visible text by visible text does not change how the result starts. -/
theorem startsVisible_sweep_cons {subs : List Substitution} {new : Substitution} {offset : Nat}
    {left part right : Text} (hspan : new.span = ⟨offset + size left, offset + size left + size part⟩)
    (hpart : startsVisible part = true) (hnew : startsVisible new.text = true)
    (hsubs : ∀ sub ∈ subs, sub.span.start < sub.span.stop) (hspare : Spare subs new.span) :
    startsVisible (sweep (new :: subs) offset (left ++ part ++ right)) =
      startsVisible (sweep subs offset (left ++ part ++ right)) := by
  have hnonempty : part ≠ [] := by
    rintro rfl
    cases hpart
  have hpos := size_pos hnonempty
  have hlt : new.span.start < new.span.stop := by rw [hspan]; exact Nat.lt_add_of_pos_right hpos
  have hleft : sweep (new :: subs) offset left = sweep subs offset left :=
    sweep_cons_of_apart hlt (.inr (by rw [hspan]))
  have hcopied := sweep_of_spare hsubs (hspan ▸ hspare)
  rw [sweep_append, sweep_append, sweep_append subs, sweep_append subs, hleft,
    sweep_cons_self hnonempty hspan hsubs hspare, hcopied]
  exact startsVisible_append hnew hpart

/-- What a directive becomes starts with a letter. -/
theorem startsVisible_of_render? {directive : Directive} {rendered : Text}
    (h : directive.render? = some rendered) : startsVisible rendered = true := by
  cases directive with
  | moduleFragment fragment => cases fragment <;> cases h <;> rfl
  | exportDeclaration | exportModule | exportImport | importTarget | includeHeader =>
    cases h
    rfl
  | excludeBegin | excludeEnd | ignoreBegin | ignoreEnd | literal | unknown => cases h

theorem startsVisible_of_interface? {text : Text} {regions : List Region} {tag : Tag} {interface : Text}
    (h : tag.interface? text regions = some interface) : startsVisible interface = true := by
  by_cases hexport : tag.directive = .exportDeclaration
  · rw [Tag.interface?_of_export hexport] at h
    split at h <;> cases h <;> rfl
  · rw [Tag.interface?_of_ne hexport] at h
    exact startsVisible_of_render? h

namespace Layout

variable {layout : Layout} {tag : Tag}

/-- A tag that lies in no region shares no byte with any. -/
theorem outside_iff (htag : tag ∈ layout.tags) : inSomeRegion layout.regions tag.span = false ↔
    ∀ region ∈ layout.regions, tag.span.Apart region.span := by
  rw [inSomeRegion, List.any_eq_false]
  exact forall₂_congr fun region hregion => by
    rw [layout.encloses_iff hregion htag, Decidable.not_not]

/-- Taking the regions away leaves the tags outside of them alone. -/
theorem spare_cuts_of_outside (htag : tag ∈ layout.tags)
    (houtside : inSomeRegion layout.regions tag.span = false) : Spare (cuts layout.regions) tag.span := by
  intro cut hcut
  obtain ⟨region, hregion, hcut⟩ := List.mem_flatMap.mp hcut
  exact (((outside_iff htag).mp houtside region hregion).of_encloses ⟨Nat.le_refl _, Nat.le_refl _⟩
    (cut_within hregion hcut).2).symm

/-- A tag in a region that is gone but for its content is protected content. -/
theorem inside_of_spare (htag : tag ∈ layout.tags) {region : Region} (hregion : region ∈ layout.regions)
    (henclosed : region.span.encloses tag.span = true) (hspare : Spare (cuts layout.regions) tag.span) :
    region.kind.isProtected = true ∧ region.interior.encloses tag.span = true := by
  have hapart := (layout.encloses_iff hregion htag).mp henclosed
  have hcut : ∀ cut ∈ region.cuts, cut.span.Apart tag.span := fun cut hcut =>
    hspare cut (List.mem_flatMap.mpr ⟨region, hregion, hcut⟩)
  rw [Region.cuts] at hcut
  by_cases hprotected : region.kind.isProtected = true
  · rw [if_pos hprotected, List.forall_mem_cons, List.forall_mem_singleton] at hcut
    refine ⟨hprotected, ?_⟩
    cases layout.locates region hregion tag htag with
    | outside hclear => exact absurd hclear hapart
    | inside hinside => exact hinside
    | marker _ htouched =>
      rcases htouched with hopening | hclosing
      · exact absurd hcut.1.symm hopening
      · exact absurd hcut.2.symm hclosing
  · rw [if_neg hprotected, List.forall_mem_singleton] at hcut
    exact absurd hcut.symm hapart

/-- A tag is known by its origin. -/
theorem eq_of_origin {other : Tag} (hother : other ∈ layout.tags) (htag : tag ∈ layout.tags)
    (horigin : other.origin = tag.origin) : other = tag := by
  have hstands := layout.tagsIn.standsIn tag htag
  have hstands' := layout.tagsIn.standsIn other hother
  by_contra hne
  have hapart := layout.tags_apart hother htag hne
  have hlt := hstands.start_lt_stop
  have hlt' := hstands'.start_lt_stop
  rw [hstands.origin, hstands'.origin] at horigin
  simp only [Span.Apart] at hapart
  omega

end Layout

namespace Draft

variable {layout : Layout} {subs : List Substitution} {draft : Draft} {tag : Tag}

namespace Sweeps

theorem start_lt_stop (h : draft.Sweeps layout subs) : ∀ sub ∈ subs, sub.span.start < sub.span.stop :=
  fun sub hsub => (h.fitsIn sub hsub).start_lt_stop

/-- A pending tag is found by its origin. -/
theorem find_origin (h : draft.Sweeps layout subs) (htag : tag ∈ layout.tags) (hspare : Spare subs tag.span) :
    draft.tags.find? (·.origin == tag.origin) = some (tag.placed subs layout.text) := by
  have hmem : tag ∈ layout.tags.filter fun tag => Spare subs tag.span := by
    simp [htag, hspare]
  rw [h.tags, pendingTags, List.find?_map]
  cases hfind : (layout.tags.filter fun tag => Spare subs tag.span).find?
      ((·.origin == tag.origin) ∘ Tag.placed subs layout.text) with
  | none => simpa [Tag.placed] using List.find?_eq_none.mp hfind tag hmem
  | some other =>
    have hother := (List.mem_filter.mp (List.mem_of_find?_eq_some hfind)).1
    have horigin := List.find?_some hfind
    rw [Function.comp_apply, beq_iff_eq] at horigin
    rw [layout.eq_of_origin hother htag horigin]
    rfl

/-- The text under a pending tag can be cut out. -/
theorem exists_slice (h : draft.Sweeps layout subs) (htag : tag ∈ layout.tags)
    (hspare : Spare subs tag.span) :
    ∃ body, slice (tag.placed subs layout.text).span draft.source.current = .ok body := by
  obtain ⟨body, hbody, -⟩ := (layout.tagsIn.standsIn tag htag).body
  have hplaced := selects_placeSpan hbody h.start_lt_stop hspare
  rw [← h.current] at hplaced
  exact ⟨body, hplaced.slice_eq⟩

/-- The character that follows a position is the one that a sweep from there writes first. -/
theorem charAt_place (h : draft.Sweeps layout subs) {position : Nat}
    (hposition : IsBoundary layout.text position) :
    charAt (place subs layout.text position) draft.source.current =
      .ok (sweep subs position (behind position layout.text)).head? := by
  obtain ⟨before, after, htext, rfl⟩ := hposition
  rw [h.current, htext, place_append, behind_append, sweep_append, Nat.zero_add, charAt_append]

/-- A pending tag that lies outside a protected region shares no byte with its content. -/
theorem apart_interior (h : draft.Sweeps layout subs) {region : Region} {interior : Span}
    (hregion : region ∈ layout.regions) (htag : tag ∈ layout.tags) (hspare : Spare subs tag.span)
    (hapart : tag.span.Apart region.span) (hfollows : region.interior.Follows layout.text subs interior) :
    (placeSpan subs layout.text tag.span).Apart interior := by
  have hstands := layout.tagsIn.standsIn tag htag
  obtain ⟨-, hinnerStart, hinnerStop, -, hopening, -, hclosing⟩ := layout.fitsIn region hregion
  rcases hfollows with rfl | ⟨-, sub, hsub, rfl⟩
  · exact hapart.imp
      (fun hle => place_mono subs hstands.isBoundary_stop hinnerStart (hle.trans (Nat.le_of_lt hopening)))
      (fun hle => place_mono subs hinnerStop hstands.isBoundary_start ((Nat.le_of_lt hclosing).trans hle))
  · have hfits := h.fitsIn sub hsub
    exact (hspare sub hsub).symm.imp
      (fun hle => place_mono subs hstands.isBoundary_stop hfits.isBoundary_stop
        (hle.trans (Nat.le_of_lt hfits.start_lt_stop)))
      (fun hle => place_mono subs hfits.isBoundary_stop hstands.isBoundary_start hle)

/-- A pending tag is protected when it lies in a region. -/
theorem isProtected_placed (h : draft.Sweeps layout subs) (hcuts : ∀ cut ∈ cuts layout.regions, cut ∈ subs)
    (htag : tag ∈ layout.tags) (hspare : Spare subs tag.span) :
    draft.source.isProtected (tag.placed subs layout.text).span = inSomeRegion layout.regions tag.span := by
  have hstands := layout.tagsIn.standsIn tag htag
  have hlt := place_lt hstands.isBoundary_start hstands.isBoundary_stop hstands.start_lt_stop
    h.start_lt_stop hspare
  have hoverlaps : ∀ current : Region, current.interiorOverlaps (tag.placed subs layout.text).span = true ↔
      ¬ (placeSpan subs layout.text tag.span).Apart current.interior :=
    fun current => Region.interiorOverlaps_iff hlt
  rw [Bool.eq_iff_iff]
  simp only [SourceText.isProtected, inSomeRegion, List.any_eq_true, Bool.and_eq_true, hoverlaps]
  constructor
  · rintro ⟨current, hcurrent, hprotected, hmeets⟩
    obtain ⟨index, hindex, rfl⟩ := List.getElem_of_mem hcurrent
    have hindex' : index < layout.regions.length := h.regions.length_eq ▸ hindex
    have htracks : Region.Tracks layout.text subs layout.regions[index] draft.source.regions[index] :=
      h.regions.get hindex' hindex
    refine ⟨_, List.getElem_mem hindex', ?_⟩
    by_contra hnot
    rw [layout.encloses_iff (List.getElem_mem hindex') htag, Decidable.not_not] at hnot
    exact hmeets (h.apart_interior (List.getElem_mem hindex') htag hspare hnot
      (htracks.interior (htracks.kind ▸ hprotected)))
  · rintro ⟨region, hregion, henclosed⟩
    have hspareCuts : Spare (cuts layout.regions) tag.span := fun cut hcut => hspare cut (hcuts cut hcut)
    obtain ⟨hprotected, hinside⟩ := layout.inside_of_spare htag hregion henclosed hspareCuts
    obtain ⟨index, hindex, rfl⟩ := List.getElem_of_mem hregion
    obtain ⟨-, hinnerStart, hinnerStop, -, -, -, -⟩ := layout.fitsIn _ hregion
    obtain ⟨current, hcurrent, htracks⟩ := h.region_at hindex
    have hnonempty := hstands.start_lt_stop
    refine ⟨current, List.mem_of_getElem? hcurrent, htracks.kind ▸ hprotected, ?_⟩
    simp only [Span.encloses, Bool.and_eq_true, decide_eq_true_eq] at hinside
    rcases htracks.interior hprotected with hfollows | ⟨hempty, -⟩
    · have hmono := place_mono subs hinnerStart hstands.isBoundary_start hinside.1
      have hmono' := place_mono subs hstands.isBoundary_stop hinnerStop hinside.2
      rw [hfollows]
      simp only [placeSpan, Span.Apart]
      omega
    · omega

end Sweeps
end Draft
end TaggedHeader
