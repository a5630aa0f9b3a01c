import TaggedHeader.Proofs.Draft.Steps
import TaggedHeader.Proofs.Region.Layout

/-!
# A draft as one sweep

The edits of a conversion are chained: each one moves the pending tags and the regions for the next. Seen
from the header they are independent. `Draft.Sweeps` says that a draft is what one sweep over the header
leaves, for a list of substitutions in coordinates of the header: tags that no substitution touches are
pending where the sweep has put them, and the same holds of regions. `Draft.Sweeps.apply` is the step: an
edit of a range where it has ended up makes one more substitution.
-/

namespace TaggedHeader

open Text Substitution

variable {text : Text} {subs : List Substitution} {new : Substitution} {edit : Edit}

instance (subs : List Substitution) (span : Span) : Decidable (Spare subs span) :=
  inferInstanceAs (Decidable (∀ sub ∈ subs, _))

/-- A tag where it has ended up. -/
def Tag.placed (subs : List Substitution) (text : Text) (tag : Tag) : Tag :=
  { tag with span := placeSpan subs text tag.span }

/-- The tags that no substitution touches, where they have ended up. -/
def pendingTags (subs : List Substitution) (text : Text) (tags : List Tag) : List Tag :=
  (tags.filter fun tag => Spare subs tag.span).map (Tag.placed subs text)

theorem Substitution.spare_cons {span : Span} :
    Spare (new :: subs) span ↔ new.span.Apart span ∧ Spare subs span := List.forall_mem_cons

/-- An edit drops the pending tags that it touches and moves the others. -/
theorem rebaseTags_pendingTags (h : Admits text subs new) (hedit : Makes text subs new edit)
    {tags : List Tag} (htags : ∀ tag ∈ tags, tag.StandsIn text) :
    rebaseTags edit (pendingTags subs text tags) = .ok (pendingTags (new :: subs) text tags) := by
  induction tags with
  | nil => rfl
  | cons tag tags ih =>
    obtain ⟨htag, htags⟩ := List.forall_mem_cons.mp htags
    have hrest := ih htags
    simp only [pendingTags, List.filter_cons, spare_cons] at hrest ⊢
    by_cases hspare : Spare subs tag.span
    · have hmoved := h.mapSpan_placeSpan hedit htag.isBoundary_start htag.isBoundary_stop
        htag.start_lt_stop hspare
      by_cases hapart : new.span.Apart tag.span
      · rw [if_pos hapart] at hmoved
        simp [hspare, hapart, rebaseTags, Tag.placed, hmoved, hrest, bind, Except.bind, pure, Except.pure]
      · rw [if_neg hapart] at hmoved
        simp [hspare, hapart, rebaseTags, Tag.placed, hmoved, hrest, bind, Except.bind, pure, Except.pure]
    · simpa [hspare] using hrest

/-- Where the edits take a protected interior: to where the sweep puts it or, when it is empty, possibly
behind a substitution. -/
def Span.Follows (text : Text) (subs : List Substitution) (given current : Span) : Prop :=
  current = placeSpan subs text given ∨ given.start = given.stop ∧
    ∃ sub ∈ subs, current = placeSpan subs text ⟨sub.span.stop, sub.span.stop⟩

/-- How a region of a draft follows the region of the header: as a whole while no substitution touches it,
and with its interior while that is protected. -/
structure Region.Tracks (text : Text) (subs : List Substitution) (given current : Region) : Prop where
  kind : current.kind = given.kind
  whole : Spare subs given.span → current.span = placeSpan subs text given.span ∧
    current.interior = placeSpan subs text given.interior
  interior : given.kind.isProtected = true → given.interior.Follows text subs current.interior

namespace Region.Tracks

variable {given current : Region}

/-- Before any substitution a region is where it was. -/
theorem nil (hgiven : given.FitsIn text) : Tracks text [] given given := by
  have hplace : placeSpan [] text given.span = given.span ∧
      placeSpan [] text given.interior = given.interior := by
    simp only [placeSpan, place_nil hgiven.isBoundary_start, place_nil hgiven.isBoundary_stop,
      place_nil hgiven.isBoundary_interiorStart, place_nil hgiven.isBoundary_interiorStop, and_self]
  exact ⟨rfl, fun _ => ⟨hplace.1.symm, hplace.2.symm⟩, fun _ => .inl hplace.2.symm⟩

/-- An empty interior follows an edit that does not touch the position it stands at. -/
theorem mapRange_position (h : Admits text subs new) (hedit : Makes text subs new edit) {position : Nat}
    (hposition : IsBoundary text position)
    (hclear : new.span.stop ≤ position ∨ position ≤ new.span.start) :
    edit.mapRange (placeSpan subs text ⟨position, position⟩) =
        placeSpan (new :: subs) text ⟨position, position⟩ ∨
      edit.mapRange (placeSpan subs text ⟨position, position⟩) =
        placeSpan (new :: subs) text ⟨new.span.stop, new.span.stop⟩ := by
  rcases hclear with hbehind | hbefore
  · exact .inl (h.mapRange_behind hedit hposition hposition (Nat.le_refl _) hbehind)
  · rcases Nat.eq_or_lt_of_le (place_mono subs hposition h.new_fitsIn.isBoundary_start hbefore)
      with heq | hlt
    · exact .inr (h.mapRange_empty hedit heq)
    · exact .inl (h.mapRange_before hedit hposition hposition (Nat.le_refl _) hbefore hlt)

/-- A region that neither the edit nor an earlier one touches stays where the sweep puts it. -/
theorem whole_cons (hgiven : given.FitsIn text) (h : Admits text subs new)
    (hedit : Makes text subs new edit) (htracks : Tracks text subs given current)
    (hspare : Spare (new :: subs) given.span) :
    edit.mapRange current.span = placeSpan (new :: subs) text given.span ∧
      edit.mapRange current.interior = placeSpan (new :: subs) text given.interior := by
  obtain ⟨hboundaryStart, hboundaryInner, hboundaryOuter, hboundaryStop, hopening, hinterior, hclosing⟩ :=
    hgiven
  obtain ⟨hapart, hspare⟩ := spare_cons.mp hspare
  obtain ⟨hspan, hinner⟩ := htracks.whole hspare
  have hle : given.span.start ≤ given.span.stop := by omega
  rw [hspan, hinner]
  rcases hapart with hbehind | hbefore
  · exact ⟨h.mapRange_behind hedit hboundaryStart hboundaryStop hle hbehind,
      h.mapRange_behind hedit hboundaryInner hboundaryOuter hinterior (by omega)⟩
  · -- The closing marker has bytes, so every position before it stays before the edit.
    have hclosingSpare : Spare subs given.closing :=
      hspare.of_encloses ⟨(Nat.le_of_lt hopening).trans hinterior, Nat.le_refl _⟩
    have hlt : place subs text given.interior.stop < place subs text new.span.start :=
      (place_lt hboundaryOuter hboundaryStop hclosing h.start_lt_stop hclosingSpare).trans_le
        (place_mono _ hboundaryStop h.new_fitsIn.isBoundary_start hbefore)
    have hstart := place_mono subs hboundaryStart hboundaryOuter (by omega)
    have hinnerStart := place_mono subs hboundaryInner hboundaryOuter hinterior
    exact ⟨h.mapRange_before hedit hboundaryStart hboundaryStop hle hbefore (hstart.trans_lt hlt),
      h.mapRange_before hedit hboundaryInner hboundaryOuter hinterior (by omega)
        (hinnerStart.trans_lt hlt)⟩

/-- A protected interior follows an edit that does not touch it. -/
theorem interior_cons (hgiven : given.FitsIn text) (h : Admits text subs new)
    (hedit : Makes text subs new edit) (hspare : Spare subs given.interior)
    (hclear : new.span.Apart given.interior)
    (hfollows : given.interior.Follows text subs current.interior) :
    given.interior.Follows text (new :: subs) (edit.mapRange current.interior) := by
  rcases hfollows with hinterior | ⟨hempty, sub, hsub, hinterior⟩
  · rcases Nat.eq_or_lt_of_le hgiven.interior_le with hempty | hlt
    · have hposition : given.interior = ⟨given.interior.stop, given.interior.stop⟩ :=
        congrArg (fun start => (⟨start, given.interior.stop⟩ : Span)) hempty
      rw [hinterior, hposition]
      refine (mapRange_position h hedit hgiven.isBoundary_interiorStop ?_).imp id fun hmoved =>
        ⟨rfl, new, List.mem_cons_self, hmoved⟩
      exact hclear.imp (fun hbehind => hbehind.trans hgiven.interior_le) id
    · rw [hinterior]
      exact .inl (h.mapRange_spare hedit hgiven.isBoundary_interiorStart hgiven.isBoundary_interiorStop hlt
        hspare hclear)
  · rw [hinterior]
    have hclearSub : new.span.stop ≤ sub.span.stop ∨ sub.span.stop ≤ new.span.start := by
      have hapart := h.spare sub hsub
      have hlt := h.start_lt_stop sub hsub
      simp only [Span.Apart] at hapart
      omega
    refine .inr ⟨hempty, ?_⟩
    rcases mapRange_position h hedit (h.fitsIn sub hsub).isBoundary_stop hclearSub with hmoved | hmoved
    · exact ⟨sub, List.mem_cons_of_mem _ hsub, hmoved⟩
    · exact ⟨new, List.mem_cons_self, hmoved⟩

/-- A moved region follows the region of the header through one more substitution. -/
theorem cons (hgiven : given.FitsIn text) (h : Admits text subs new) (hedit : Makes text subs new edit)
    (hspare : given.kind.isProtected = true → Spare (new :: subs) given.interior)
    (htracks : Tracks text subs given current) :
    Tracks text (new :: subs) given (SourceText.rebaseRegion edit current) where
  kind := htracks.kind
  whole := whole_cons hgiven h hedit htracks
  interior := fun hprotected =>
    interior_cons hgiven h hedit (spare_cons.mp (hspare hprotected)).2 (spare_cons.mp (hspare hprotected)).1
      (htracks.interior hprotected)

end Region.Tracks

/-- A region with both ranges where the sweep puts them. -/
def Region.placed (subs : List Substitution) (text : Text) (region : Region) : Region :=
  { region with span := placeSpan subs text region.span, interior := placeSpan subs text region.interior }

/-- A deletion moves a region to where the sweep puts it. -/
theorem Region.rebaseRegion_placed {region : Region} (hregion : region.FitsIn text)
    (h : Admits text subs new) (hedit : Makes text subs new edit) (hcut : new.text = []) :
    SourceText.rebaseRegion edit (region.placed subs text) = region.placed (new :: subs) text := by
  obtain ⟨hstart, hinnerStart, hinnerStop, hstop, hopening, hinterior, hclosing⟩ := hregion
  simp only [SourceText.rebaseRegion, placed]
  rw [h.mapRange_cut hedit hcut hstart hstop (by omega),
    h.mapRange_cut hedit hcut hinnerStart hinnerStop hinterior]

/-- A substitution that can be added to others in a header: it fits, touches none of them, and leaves
protected content alone. -/
structure Layout.Allows (layout : Layout) (subs : List Substitution) (new : Substitution) : Prop where
  fitsIn : new.FitsIn layout.text
  spare : Spare subs new.span
  clear : ∀ region ∈ layout.regions, region.kind.isProtected = true → new.span.Apart region.interior

/-- A draft is what a sweep over a header leaves. -/
structure Draft.Sweeps (layout : Layout) (subs : List Substitution) (draft : Draft) : Prop where
  fitsIn : ∀ sub ∈ subs, sub.FitsIn layout.text
  apart : subs.Pairwise fun first second => first.span.Apart second.span
  spare : ∀ region ∈ layout.regions, region.kind.isProtected = true → Spare subs region.interior
  current : draft.source.current = sweep subs 0 layout.text
  tags : draft.tags = pendingTags subs layout.text layout.tags
  regions : List.Forall₂ (Region.Tracks layout.text subs) layout.regions draft.source.regions
  deletions : (∀ sub ∈ subs, sub.text = []) →
    draft.source.regions = layout.regions.map (Region.placed subs layout.text)
  changes : draft.source.changes = subs.length

namespace Draft.Sweeps

variable {layout : Layout} {draft : Draft}

/-- Before the first edit nothing is substituted. -/
theorem ofScan {text : Text} {scan : RegionScan} (hscan : scanRegions text (scanTags text) = .ok scan) :
    (Draft.ofScan text (scanTags text) scan).Sweeps (.ofScan hscan) [] where
  fitsIn := by simp
  apart := .nil
  spare := by simp [Spare]
  current := (sweep_nil 0 text).symm
  tags := by
    have hplace : ∀ tag ∈ scanTags text, tag.placed [] text = tag := fun tag htag => by
      have hstands := standsIn_of_mem_scanTags htag
      simp only [Tag.placed, placeSpan, place_nil hstands.isBoundary_start, place_nil hstands.isBoundary_stop]
    have hall : (scanTags text).filter (fun tag => Spare [] tag.span) = scanTags text :=
      List.filter_eq_self.mpr fun tag _ => by simp [Spare]
    simp only [Draft.ofScan, pendingTags, Layout.ofScan, hall]
    exact ((List.map_congr_left hplace).trans (List.map_id _)).symm
  regions := List.forall₂_same.mpr fun region hregion =>
    .nil ((Layout.ofScan hscan).fitsIn region hregion)
  deletions := fun _ => by
    have hplaced : ∀ region ∈ scan.regions, region.placed [] text = region := fun region hregion => by
      obtain ⟨hstart, hinnerStart, hinnerStop, hstop, -, -, -⟩ :=
        (Layout.ofScan hscan).fitsIn region hregion
      simp only [Layout.ofScan] at hstart hinnerStart hinnerStop hstop
      simp only [Region.placed, placeSpan, place_nil hstart, place_nil hinnerStart, place_nil hinnerStop,
        place_nil hstop]
    exact ((List.map_congr_left hplaced).trans (List.map_id _)).symm
  changes := rfl

/-- The order of the substitutions does not matter. -/
theorem perm {subs' : List Substitution} (h : draft.Sweeps layout subs) (hperm : subs.Perm subs') :
    draft.Sweeps layout subs' := by
  have hlt : ∀ sub ∈ subs, sub.span.start < sub.span.stop := fun sub hsub =>
    (h.fitsIn sub hsub).start_lt_stop
  have hmem : ∀ sub, sub ∈ subs ↔ sub ∈ subs' := fun _ => hperm.mem_iff
  have hspare : ∀ span, Spare subs span ↔ Spare subs' span := fun span => by
    simp only [Spare, hmem]
  have hsweep : ∀ offset text, sweep subs offset text = sweep subs' offset text :=
    sweep_congr hmem hlt h.apart
  have hplace : placeSpan subs layout.text = placeSpan subs' layout.text := by
    funext span
    simp only [placeSpan, place_perm hperm hlt h.apart]
  have hpending : pendingTags subs layout.text layout.tags = pendingTags subs' layout.text layout.tags := by
    have hplaced : Tag.placed subs layout.text = Tag.placed subs' layout.text := by
      funext tag
      simp only [Tag.placed, hplace]
    simp only [pendingTags, hspare, hplaced]
  refine ⟨fun sub hsub => h.fitsIn sub ((hmem sub).mpr hsub), hperm.pairwise h.apart Span.Apart.symm,
    fun region hregion hprotected => (hspare _).mp (h.spare region hregion hprotected),
    h.current.trans (hsweep _ _), h.tags.trans hpending, h.regions.imp fun given current htracks => ?_,
    fun hcut => ?_, h.changes.trans hperm.length_eq⟩
  · obtain ⟨hkind, hwhole, hinterior⟩ := htracks
    refine ⟨hkind, fun hspared => hplace ▸ hwhole ((hspare _).mpr hspared), fun hprotected => ?_⟩
    rw [Span.Follows, ← hplace]
    obtain hfollows | ⟨hempty, sub, hsub, heq⟩ := hinterior hprotected
    · exact .inl hfollows
    · exact .inr ⟨hempty, sub, (hmem sub).mp hsub, heq⟩
  · have hplaced : Region.placed subs layout.text = Region.placed subs' layout.text := by
      funext region
      simp only [Region.placed, hplace]
    rw [← hplaced]
    exact h.deletions fun sub hsub => hcut sub ((hmem sub).mp hsub)

/-- The substitutions of a sweep admit one that the header allows. -/
theorem admits (h : draft.Sweeps layout subs) (hnew : layout.Allows subs new) :
    Admits layout.text subs new := ⟨h.fitsIn, hnew.fitsIn, hnew.spare⟩

/-- Replacing a range where it has ended up is a sweep with one more substitution. -/
theorem current_of_replace (h : Admits text subs new) {source next : SourceText}
    (hcurrent : source.current = sweep subs 0 text)
    (hreplace : source.replace (placeSpan subs text new.span) new.text = .ok (edit, next)) :
    next.current = sweep (new :: subs) 0 text := by
  obtain ⟨part, hpart, hnonempty⟩ := h.new_fitsIn.exists_selects
  have hsubs := h.start_lt_stop
  have hplaced := selects_placeSpan hpart hsubs h.spare
  obtain ⟨before, after, rfl, hstart, hstop⟩ := hpart
  have hspan : new.span = ⟨size before, size before + size part⟩ := by rw [hstop, hstart]
  obtain ⟨before', part', after', htext, hstart', hstop', -, -, -, rfl⟩ :=
    SourceText.replace_eq_ok_iff.mp hreplace
  have hswept := sweep_of_selects after hsubs (hspan ▸ h.spare)
  rw [hcurrent] at htext
  have hsame : part' = part := Selects.unique ⟨before', after', htext, hstart', hstop'⟩ hplaced
  have hplace : size before' = size (sweep subs 0 before) := by
    rw [hstart', placeSpan, ← hstart, List.append_assoc, place_append]
  rw [hsame, hswept, List.append_assoc, List.append_assoc] at htext
  obtain ⟨hbefore, hrest⟩ := append_inj_of_size_eq htext hplace.symm
  rw [sweep_cons_of_selects hnonempty hspan hsubs h.spare, hbefore, List.append_cancel_left hrest]

/-- An edit of a range where the sweep has put it makes one more substitution. -/
theorem apply (h : draft.Sweeps layout subs) (hnew : layout.Allows subs new) :
    ∃ edit next, draft.apply (placeSpan subs layout.text new.span) new.text = .ok (edit, next) ∧
      Makes layout.text subs new edit ∧ next.Sweeps layout (new :: subs) ∧
      next.source.regions = draft.source.regions.map (SourceText.rebaseRegion edit) ∧
      next.diagnostics = draft.diagnostics := by
  have hadmits := h.admits hnew
  obtain ⟨part, hpart, -⟩ := hnew.fitsIn.exists_selects
  have hplaced := selects_placeSpan hpart hadmits.start_lt_stop hnew.spare
  rw [← h.current] at hplaced
  obtain ⟨edit, source, hreplace⟩ := SourceText.exists_replace hplaced new.text
  obtain ⟨_, _, _, -, -, -, hstart, hstop, hinserted, hsource⟩ := SourceText.replace_eq_ok_iff.mp hreplace
  have hmakes : Makes layout.text subs new edit := ⟨hstart, hstop, hinserted⟩
  have hregions := SourceText.regions_replace hreplace
  have hspare : ∀ region ∈ layout.regions, region.kind.isProtected = true →
      Spare (new :: subs) region.interior := fun region hregion hprotected =>
    spare_cons.mpr ⟨hnew.clear region hregion hprotected, h.spare region hregion hprotected⟩
  have htags := rebaseTags_pendingTags hadmits hmakes layout.tagsIn.standsIn
  rw [← h.tags] at htags
  refine ⟨edit, { draft with source, tags := pendingTags (new :: subs) layout.text layout.tags },
    apply_eq_ok_iff.mpr ⟨source, _, hreplace, htags, rfl⟩, hmakes, ?_, hregions, rfl⟩
  exact {
    fitsIn := List.forall_mem_cons.mpr ⟨hnew.fitsIn, h.fitsIn⟩
    apart := List.pairwise_cons.mpr ⟨fun sub hsub => (hnew.spare sub hsub).symm, h.apart⟩
    spare := hspare
    current := current_of_replace hadmits h.current hreplace
    tags := rfl
    regions := by
      rw [hregions, List.forall₂_map_right_iff]
      exact forall₂_imp_of_mem h.regions fun given hgiven current _ htracks =>
        htracks.cons (layout.fitsIn given hgiven) hadmits hmakes (hspare given hgiven)
    deletions := fun hcut => by
      obtain ⟨hnewCut, hcut⟩ := List.forall_mem_cons.mp hcut
      rw [hregions, h.deletions hcut, List.map_map]
      exact List.map_congr_left fun region hregion =>
        Region.rebaseRegion_placed (layout.fitsIn region hregion) hadmits hmakes hnewCut
    changes := by
      rw [hsource]
      exact congrArg (· + 1) h.changes }

end Draft.Sweeps
end TaggedHeader
