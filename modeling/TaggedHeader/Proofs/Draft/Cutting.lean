import TaggedHeader.Proofs.Draft.Sweeps

/-!
# Taking the regions away

The first two passes settle the regions. The markers of every protected region go, its content stays; a
removed region goes as a whole. In coordinates of the header these are substitutions by the empty text that
touch neither each other nor protected content, so each of the two loops is an instance of `Sweeps.apply`.
-/

namespace TaggedHeader

open Text Substitution

/-- What goes of a region: the markers of a protected one, and all of any other. -/
def Region.cuts (region : Region) : List Substitution :=
  if region.kind.isProtected then [⟨region.opening, []⟩, ⟨region.closing, []⟩] else [⟨region.span, []⟩]

/-- What goes of all regions. -/
def cuts (regions : List Region) : List Substitution := regions.flatMap Region.cuts

/-- The regions of some kinds. -/
def regionsOf (isTaken : RegionKind → Bool) (regions : List Region) : List Region :=
  regions.filter fun region => isTaken region.kind

theorem cuts_append (left right : List Region) : cuts (left ++ right) = cuts left ++ cuts right :=
  List.flatMap_append

/-- What goes leaves nothing in its place. -/
theorem text_eq_nil_of_mem_cuts {regions : List Region} {cut : Substitution} (h : cut ∈ cuts regions) :
    cut.text = [] := by
  obtain ⟨region, -, hcut⟩ := List.mem_flatMap.mp h
  rw [Region.cuts] at hcut
  split at hcut
  · rw [List.mem_pair] at hcut
    rcases hcut with rfl | rfl <;> rfl
  · rw [List.mem_singleton] at hcut
    rw [hcut]

theorem cuts_singleton (region : Region) : cuts [region] = region.cuts := List.append_nil _

namespace Layout

variable {layout : Layout} {region other : Region} {cut : Substitution}

/-- What goes of a region lies in it, between characters. -/
theorem cut_within (hregion : region ∈ layout.regions) (hcut : cut ∈ region.cuts) :
    cut.FitsIn layout.text ∧ region.span.start ≤ cut.span.start ∧ cut.span.stop ≤ region.span.stop := by
  obtain ⟨hstart, hinnerStart, hinnerStop, hstop, hopening, hinterior, hclosing⟩ :=
    layout.fitsIn region hregion
  rw [Region.cuts] at hcut
  split at hcut
  · rw [List.mem_pair] at hcut
    rcases hcut with rfl | rfl
    · refine ⟨⟨hstart, hinnerStart, hopening⟩, Nat.le_refl _, ?_⟩
      simp only [Region.opening]
      omega
    · refine ⟨⟨hinnerStop, hstop, hclosing⟩, ?_, Nat.le_refl _⟩
      simp only [Region.closing]
      omega
  · rw [List.mem_singleton] at hcut
    subst hcut
    refine ⟨⟨hstart, hstop, ?_⟩, Nat.le_refl _, Nat.le_refl _⟩
    simp only
    omega

/-- What goes of one region shares no byte with another region. -/
theorem cut_apart (hregion : region ∈ layout.regions) (hother : other ∈ layout.regions)
    (hne : region ≠ other) (hcut : cut ∈ region.cuts) : cut.span.Apart other.span :=
  (layout.regions_apart hregion hother hne).of_encloses (cut_within hregion hcut).2
    ⟨Nat.le_refl _, Nat.le_refl _⟩

/-- What goes of regions that do not include a region spares it. -/
theorem spare_cuts (hregion : region ∈ layout.regions) {regions : List Region}
    (hregions : ∀ other ∈ regions, other ∈ layout.regions ∧ other ≠ region) :
    Spare (cuts regions).reverse region.span := by
  intro cut hcut
  rw [List.mem_reverse, cuts, List.mem_flatMap] at hcut
  obtain ⟨other, hother, hcut⟩ := hcut
  obtain ⟨hmem, hne⟩ := hregions other hother
  exact cut_apart hmem hregion hne hcut

/-- A header allows what goes of a region, as far as earlier substitutions have not touched it. -/
theorem allows_cut {subs : List Substitution} (hregion : region ∈ layout.regions)
    (hcut : cut ∈ region.cuts) (hspare : Spare subs cut.span) : layout.Allows subs cut where
  fitsIn := (cut_within hregion hcut).1
  spare := hspare
  clear := by
    intro other hother hprotected
    obtain ⟨-, -, -, -, hopening, hinterior, hclosing⟩ := layout.fitsIn other hother
    by_cases heq : region = other
    · subst heq
      rw [Region.cuts, if_pos hprotected, List.mem_pair] at hcut
      rcases hcut with rfl | rfl
      · exact .inl (Nat.le_refl _)
      · exact .inr (Nat.le_refl _)
    · exact (cut_apart hregion hother heq hcut).of_encloses ⟨Nat.le_refl _, Nat.le_refl _⟩
        ⟨Nat.le_of_lt hopening, Nat.le_of_lt hclosing⟩

end Layout

namespace Draft

variable {layout : Layout} {subs : List Substitution} {draft : Draft}

/-- The region of a draft at an index follows the region of the header at that index. -/
theorem Sweeps.region_at (h : draft.Sweeps layout subs) {index : Nat}
    (hindex : index < layout.regions.length) : ∃ current, draft.source.regions[index]? = some current ∧
      Region.Tracks layout.text subs layout.regions[index] current := by
  have hindex' : index < draft.source.regions.length := h.regions.length_eq ▸ hindex
  exact ⟨draft.source.regions[index], List.getElem?_eq_getElem hindex', h.regions.get hindex hindex'⟩

/-- A step that takes away the regions of some kinds, as long as nothing has touched them. -/
structure TakesAway (layout : Layout) (isTaken : RegionKind → Bool)
    (step : Progress → Nat → Except RangeFault Progress) : Prop where
  cut : ∀ {draft : Draft} {subs : List Substitution} {index : Nat} (report : PassReport)
    (hindex : index < layout.regions.length), draft.Sweeps layout subs →
    isTaken layout.regions[index].kind = true → Spare subs layout.regions[index].span →
    ∃ next : Draft, step (draft, report) index = .ok (next.settled report) ∧
      next.Sweeps layout (layout.regions[index].cuts.reverse ++ subs) ∧
      next.diagnostics = draft.diagnostics
  skip : ∀ {draft : Draft} {report : PassReport} {index : Nat} {region : Region},
    draft.source.regions[index]? = some region → isTaken region.kind = false →
    step (draft, report) index = .ok (draft, report)

/-- Taking the markers of a protected region away makes two more substitutions. -/
theorem Sweeps.unwrapRegion (h : draft.Sweeps layout subs) {index : Nat}
    (hindex : index < layout.regions.length)
    (hprotected : layout.regions[index].kind.isProtected = true)
    (hspare : Spare subs layout.regions[index].span) (report : PassReport) :
    ∃ next : Draft, Draft.unwrapRegion (draft, report) index = .ok (next.settled report) ∧
      next.Sweeps layout (layout.regions[index].cuts.reverse ++ subs) ∧
      next.diagnostics = draft.diagnostics := by
  have hgiven := List.getElem_mem hindex
  obtain ⟨current, hcurrent, htracks⟩ := h.region_at hindex
  obtain ⟨hspan, hinterior⟩ := htracks.whole hspare
  generalize layout.regions[index] = region at *
  obtain ⟨-, hinnerStart, hinnerStop, hstop, hopening, hinner, hclosing⟩ := layout.fitsIn region hgiven
  have hcuts : region.cuts = [⟨region.opening, []⟩, ⟨region.closing, []⟩] := if_pos hprotected
  have hopeningSpare : Spare subs region.opening :=
    hspare.of_encloses ⟨Nat.le_refl _, hinner.trans (Nat.le_of_lt hclosing)⟩
  have hclosingSpare : Spare subs region.closing :=
    hspare.of_encloses ⟨(Nat.le_of_lt hopening).trans hinner, Nat.le_refl _⟩
  have hopeningCut : ⟨region.opening, []⟩ ∈ region.cuts := by simp [hcuts]
  have hclosingCut : ⟨region.closing, []⟩ ∈ region.cuts := by simp [hcuts]
  have hallows := layout.allows_cut hgiven hopeningCut hopeningSpare
  obtain ⟨edit, opened, hopened, hmakes, hsweeps, -, hdiagnostics⟩ := h.apply hallows
  -- The closing marker, where the first edit has left it, is where the sweep puts it.
  have hlt : place subs layout.text region.interior.start < place subs layout.text region.span.stop :=
    (place_mono _ hinnerStart hinnerStop hinner).trans_lt
      (place_lt hinnerStop hstop hclosing (h.admits hallows).start_lt_stop hclosingSpare)
  have hplaced : (SourceText.rebaseRegion edit current).closing =
      placeSpan (⟨region.opening, []⟩ :: subs) layout.text region.closing := by
    simp only [Region.closing, SourceText.rebaseRegion, hspan, hinterior]
    rw [(h.admits hallows).mapRange_behind hmakes hinnerStart hinnerStop hinner (Nat.le_refl _),
      (h.admits hallows).mapRange_stop hmakes hstop rfl (hinner.trans (Nat.le_of_lt hclosing)) hlt]
    rfl
  have hclosingSpare' : Spare (⟨region.opening, []⟩ :: subs) region.closing :=
    spare_cons.mpr ⟨.inl hinner, hclosingSpare⟩
  obtain ⟨edit', closed, hclosed, -, hsweeps', -, hdiagnostics'⟩ :=
    hsweeps.apply (layout.allows_cut hgiven hclosingCut hclosingSpare')
  have hopening : current.opening = placeSpan subs layout.text region.opening := by
    simp only [Region.opening, hspan, hinterior, placeSpan]
  refine ⟨closed, ?_, by rw [hcuts]; exact hsweeps', hdiagnostics'.trans hdiagnostics⟩
  rw [← hopening] at hopened
  rw [← hplaced] at hclosed
  simp [Draft.unwrapRegion, hcurrent, htracks.kind, hprotected, hopened, hclosed, bind, Except.bind, pure,
    Except.pure]

/-- Deleting a removed region makes one more substitution. -/
theorem Sweeps.removeRegion (h : draft.Sweeps layout subs) {index : Nat}
    (hindex : index < layout.regions.length)
    (hremoved : layout.regions[index].kind.isProtected = false)
    (hspare : Spare subs layout.regions[index].span) (report : PassReport) :
    ∃ next : Draft, Draft.removeRegion (draft, report) index = .ok (next.settled report) ∧
      next.Sweeps layout (layout.regions[index].cuts.reverse ++ subs) ∧
      next.diagnostics = draft.diagnostics := by
  have hgiven := List.getElem_mem hindex
  obtain ⟨current, hcurrent, htracks⟩ := h.region_at hindex
  obtain ⟨hspan, -⟩ := htracks.whole hspare
  generalize layout.regions[index] = region at *
  have hcuts : region.cuts = [⟨region.span, []⟩] := if_neg (by simp [hremoved])
  have hkind : current.kind = .removed := by
    rw [htracks.kind]
    cases hkind : region.kind <;> simp [hkind, RegionKind.isProtected] at hremoved ⊢
  have hcut : ⟨region.span, []⟩ ∈ region.cuts := by simp [hcuts]
  obtain ⟨edit, deleted, hdeleted, -, hsweeps, -, hdiagnostics⟩ :=
    h.apply (layout.allows_cut hgiven hcut hspare)
  refine ⟨deleted, ?_, by rw [hcuts]; exact hsweeps, hdiagnostics⟩
  rw [← hspan] at hdeleted
  simp [Draft.removeRegion, hcurrent, hkind, hdeleted, bind, Except.bind, pure, Except.pure]

theorem takesAway_unwrapRegion (layout : Layout) :
    TakesAway layout RegionKind.isProtected Draft.unwrapRegion where
  cut := fun report hindex h hprotected hspare => h.unwrapRegion hindex hprotected hspare report
  skip := fun hregion hkind => by simp [Draft.unwrapRegion, hregion, hkind]

theorem takesAway_removeRegion (layout : Layout) :
    TakesAway layout (fun kind => !kind.isProtected) Draft.removeRegion where
  cut := fun report hindex h hremoved hspare =>
    h.removeRegion hindex ((Bool.not_eq_true' _).mp hremoved) hspare report
  skip := fun {_ _ _ region} hregion hkind => by
    have hprotected : region.kind ≠ .removed := fun hremoved => by
      simp [hremoved, RegionKind.isProtected] at hkind
    simp [Draft.removeRegion, hregion, hprotected]

/-- What a loop over the regions has done when it comes to an index. -/
structure TakenUpTo (layout : Layout) (isTaken : RegionKind → Bool) (gone : List Region)
    (diagnostics : List Diagnostic) (pass : Pass) (index : Nat) (state : Progress) : Prop where
  sweeps : state.1.Sweeps layout
    (cuts (gone ++ regionsOf isTaken (layout.regions.take index))).reverse
  diagnostics : state.1.diagnostics = diagnostics
  report : state.2 = ⟨pass, (regionsOf isTaken (layout.regions.take index)).length, 0⟩

variable {isTaken : RegionKind → Bool} {step : Progress → Nat → Except RangeFault Progress}
  {gone : List Region} {pass : Pass}

/-- One step of a loop over the regions. -/
theorem TakenUpTo.succ (hstep : TakesAway layout isTaken step)
    (hgone : ∀ region ∈ gone, region ∈ layout.regions ∧ isTaken region.kind = false)
    {diagnostics : List Diagnostic} {index : Nat} {state : Progress}
    (hindex : index < layout.regions.length)
    (h : TakenUpTo layout isTaken gone diagnostics pass index state) :
    ∃ next, step state index = .ok next ∧
      TakenUpTo layout isTaken gone diagnostics pass (index + 1) next := by
  obtain ⟨draft, report⟩ := state
  obtain ⟨hsweeps, hdiagnostics, rfl⟩ := h
  obtain ⟨current, hcurrent, htracks⟩ := hsweeps.region_at hindex
  have htake : regionsOf isTaken (layout.regions.take (index + 1)) =
      regionsOf isTaken (layout.regions.take index) ++ regionsOf isTaken [layout.regions[index]] := by
    rw [regionsOf, List.take_succ_eq_append_getElem hindex, List.filter_append]
    rfl
  by_cases htaken : isTaken layout.regions[index].kind = true
  · have hone : regionsOf isTaken [layout.regions[index]] = [layout.regions[index]] :=
      List.filter_cons_of_pos htaken
    have hspare : Spare (cuts (gone ++ regionsOf isTaken (layout.regions.take index))).reverse
        layout.regions[index].span := by
      refine layout.spare_cuts (List.getElem_mem hindex) fun other hother => ?_
      rcases List.mem_append.mp hother with hother | hother
      · obtain ⟨hmem, hkept⟩ := hgone other hother
        refine ⟨hmem, ?_⟩
        rintro rfl
        rw [htaken] at hkept
        cases hkept
      · have hbefore := (List.mem_filter.mp hother).1
        exact ⟨List.mem_of_mem_take hbefore, ne_of_mem_take layout.regions_nodup hindex hbefore⟩
    obtain ⟨next, hnext, hsweeps', hdiagnostics'⟩ := hstep.cut _ hindex hsweeps htaken hspare
    refine ⟨_, hnext, ?_, hdiagnostics'.trans hdiagnostics, ?_⟩
    · rw [htake, hone, ← List.append_assoc, cuts_append, cuts_singleton, List.reverse_append]
      exact hsweeps'
    · rw [htake, hone, List.length_append]
      rfl
  · have hnone : regionsOf isTaken [layout.regions[index]] = [] := List.filter_cons_of_neg htaken
    rw [hnone, List.append_nil] at htake
    have hkept : isTaken current.kind = false := by
      rw [htracks.kind]
      exact Bool.eq_false_iff.mpr htaken
    exact ⟨_, hstep.skip hcurrent hkept, htake ▸ hsweeps, hdiagnostics, by rw [htake]⟩

/-- Going through the regions takes all regions of the kinds away that the step takes. -/
theorem Sweeps.forRegions (hstep : TakesAway layout isTaken step)
    (h : draft.Sweeps layout (cuts gone).reverse)
    (hgone : ∀ region ∈ gone, region ∈ layout.regions ∧ isTaken region.kind = false) (pass : Pass) :
    ∃ next : Draft, draft.forRegions step pass =
        .ok (next, ⟨pass, (regionsOf isTaken layout.regions).length, 0⟩) ∧
      next.Sweeps layout (cuts (gone ++ regionsOf isTaken layout.regions)).reverse ∧
      next.diagnostics = draft.diagnostics := by
  have hlength : (List.range draft.source.regions.length).length = layout.regions.length := by
    rw [List.length_range, h.regions.length_eq]
  have hstart : TakenUpTo layout isTaken gone draft.diagnostics pass 0 (draft, .idle pass) := by
    refine ⟨?_, rfl, rfl⟩
    rw [List.take_zero, regionsOf, List.filter_nil, List.append_nil]
    exact h
  obtain ⟨⟨next, report⟩, hnext, htaken⟩ := exists_foldlM step (List.range draft.source.regions.length)
    (fun index hindex state hstate => by
      rw [List.getElem_range]
      exact hstate.succ hstep hgone (hlength ▸ hindex)) hstart
  obtain ⟨hsweeps, hdiagnostics, rfl⟩ := htaken
  rw [hlength, List.take_length] at hsweeps hnext
  exact ⟨next, hnext, hsweeps, hdiagnostics⟩

/-- The first two passes take away what is to go of all regions. -/
theorem Sweeps.cutAll (h : draft.Sweeps layout []) (keepIncludes : Bool) (lines : LineTable) :
    ∃ unwrapped next : Draft,
      draft.run keepIncludes lines .unwrapRegions = .ok (unwrapped,
        ⟨.unwrapRegions, (regionsOf (·.isProtected) layout.regions).length, 0⟩) ∧
      unwrapped.run keepIncludes lines .removeExcluded = .ok (next,
        ⟨.removeExcluded, (regionsOf (!·.isProtected) layout.regions).length, 0⟩) ∧
      next.Sweeps layout (cuts layout.regions) ∧ next.diagnostics = draft.diagnostics := by
  have hnothing : draft.Sweeps layout (cuts []).reverse := h
  obtain ⟨unwrapped, hunwrapped, hsweeps, hdiagnostics⟩ :=
    Sweeps.forRegions (takesAway_unwrapRegion layout) hnothing (by simp) .unwrapRegions
  obtain ⟨next, hnext, hsweeps', hdiagnostics'⟩ :=
    Sweeps.forRegions (takesAway_removeRegion layout) hsweeps
      (fun region hregion => by simpa [regionsOf] using hregion) .removeExcluded
  have hperm : (cuts (regionsOf (·.isProtected) layout.regions ++
      regionsOf (!·.isProtected) layout.regions)).reverse.Perm (cuts layout.regions) :=
    (List.reverse_perm _).trans ((List.filter_append_perm _ _).flatMap_right _)
  exact ⟨unwrapped, next, hunwrapped, hnext, hsweeps'.perm hperm, hdiagnostics'.trans hdiagnostics⟩

end Draft
end TaggedHeader
