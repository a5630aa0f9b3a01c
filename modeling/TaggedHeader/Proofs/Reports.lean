import TaggedHeader.Proofs.Safety

/-!
# What the reports account for

Every region, every tag that a pass comes to and every edit is accounted for in the reports of a conversion. A pass
comes to the tags that it accepts and that no removed region has taken along; it settles those outside the regions,
the pass of the module fragment only the first of them, and counts the others. An edit settles one place, but for the
protected regions, whose two markers go one after the other.
-/

namespace TaggedHeader

open Text Substitution

variable {text : Text} {tags : List Tag} {tag : Tag} {regions : List Region} {region : Region} {pass : Pass}

/-! ## Tags in regions -/

/-- What a pass over the tags settles is no marker. -/
theorem Pass.marker?_of_accepts {directive : Directive} (h : pass.accepts directive = true) :
    directive.marker? = none := by
  cases directive with
  | excludeBegin | excludeEnd | ignoreBegin | ignoreEnd | literal => cases pass <;> cases h
  | moduleFragment | exportDeclaration | exportModule | exportImport | importTarget | includeHeader | unknown => rfl

/-- A tag that is no marker shares no byte with a region, or lies in its interior. -/
theorem RegionAt.apart_or_encloses {first last index : Nat} (h : RegionAt text tags first last region)
    (htags : TagsIn text tags) (htag : tags[index]? = some tag) (hmarker : tag.directive.marker? = none) :
    tag.span.Apart region.span ∨ region.interior.encloses tag.span = true := by
  have hplaced := h.placed htags
  have hnone : markerAt tags index = none := by rw [markerAt, htag, Option.bind_some, hmarker]
  have hends : markerAt tags first ≠ none ∧ markerAt tags last ≠ none := by
    cases h with
    | literal hliteral hdirective =>
      rw [markerAt, hliteral, Option.bind_some, Directive.marker?_eq_block.mpr hdirective]
      exact ⟨Option.some_ne_none _, Option.some_ne_none _⟩
    | marked hpair =>
      rw [hpair.opens, hpair.closes]
      exact ⟨Option.some_ne_none _, Option.some_ne_none _⟩
  have hfirst : index ≠ first := fun heq => hends.1 (heq ▸ hnone)
  have hlast : index ≠ last := fun heq => hends.2 (heq ▸ hnone)
  rcases Nat.lt_or_gt_of_ne hfirst with hlt | hgt
  · exact .inl (.inl (hplaced.before htag hlt))
  · rcases Nat.lt_or_gt_of_ne hlast with hlt | hgt'
    · exact .inr ((h.encloses_iff htags htag).mpr ⟨hgt, hlt⟩)
    · exact .inl (.inr (hplaced.behind htag hgt'))

/-- The regions that go with their content. -/
def removedRegions (regions : List Region) : List Region := regionsOf (· == .removed) regions

/-- The regions whose content stays. -/
def protectedRegions (regions : List Region) : List Region := regionsOf (·.isProtected) regions

theorem regionsOf_unprotected (regions : List Region) : regionsOf (!·.isProtected) regions = removedRegions regions := by
  refine List.filter_congr fun region _ => ?_
  cases region.kind <;> rfl

theorem mem_removedRegions : region ∈ removedRegions regions ↔ region ∈ regions ∧ region.kind.isProtected = false := by
  rw [← regionsOf_unprotected, regionsOf, List.mem_filter, Bool.not_eq_true']

/-- A region is removed or protected. -/
theorem inSomeRegion_eq (regions : List Region) (span : Span) : inSomeRegion regions span =
    (inSomeRegion (removedRegions regions) span || inSomeRegion (protectedRegions regions) span) := by
  rw [← regionsOf_unprotected, Bool.eq_iff_iff, Bool.or_eq_true]
  simp only [inSomeRegion, protectedRegions, regionsOf, List.any_eq_true, List.mem_filter]
  constructor
  · rintro ⟨region, hregion, henclosed⟩
    cases hprotected : region.kind.isProtected with
    | true => exact .inr ⟨region, ⟨hregion, hprotected⟩, henclosed⟩
    | false => exact .inl ⟨region, ⟨hregion, by rw [hprotected]; rfl⟩, henclosed⟩
  · rintro (⟨region, ⟨hregion, -⟩, henclosed⟩ | ⟨region, ⟨hregion, -⟩, henclosed⟩)
    · exact ⟨region, hregion, henclosed⟩
    · exact ⟨region, hregion, henclosed⟩

/-- Taking the regions away touches a tag that is no marker only where a removed region takes it along. -/
theorem spare_cuts_iff {scan : RegionScan} (h : scanRegions text (scanTags text) = .ok scan)
    (htag : tag ∈ scanTags text) (hmarker : tag.directive.marker? = none) :
    Spare (cuts scan.regions) tag.span ↔ inSomeRegion (removedRegions scan.regions) tag.span = false := by
  rw [inSomeRegion, List.any_eq_false]
  constructor
  · intro hspare region hregion henclosed
    obtain ⟨hmem, hunprotected⟩ := mem_removedRegions.mp hregion
    have hinside := (Layout.ofScan h).inside_of_spare htag hmem henclosed hspare
    rw [hinside.1] at hunprotected
    cases hunprotected
  · intro hclear cut hcut
    obtain ⟨region, hregion, hcut⟩ := List.mem_flatMap.mp hcut
    obtain ⟨pairing, hdescribes, -, hregions⟩ := exists_pairing_of_scanRegions h
    obtain ⟨first, -, -, last, hat⟩ := hdescribes.regions.exists_index (hregions ▸ hregion)
    obtain ⟨index, hindex, rfl⟩ := List.getElem_of_mem htag
    have hlaid : region ∈ (Layout.ofScan h).regions := hregion
    have hwithin := (Layout.cut_within hlaid hcut).2
    rcases hat.apart_or_encloses (scanTags_tagsIn text) (List.getElem?_eq_getElem hindex) hmarker with hapart | hinside
    · exact (hapart.of_encloses ⟨Nat.le_refl _, Nat.le_refl _⟩ hwithin).symm
    · obtain ⟨-, -, -, -, hopening, -, hclosing⟩ := (Layout.ofScan h).fitsIn region hregion
      simp only [Span.encloses, Bool.and_eq_true, decide_eq_true_eq] at hinside
      cases hprotected : region.kind.isProtected with
      | true =>
        rw [Region.cuts, if_pos hprotected, List.mem_pair] at hcut
        rcases hcut with rfl | rfl
        · exact .inl hinside.1
        · exact .inr hinside.2
      | false =>
        have hout := hclear region (mem_removedRegions.mpr ⟨hregion, hprotected⟩)
        simp only [Span.encloses, Bool.and_eq_true, decide_eq_true_eq] at hout
        omega

/-! ## Tags that a pass comes to -/

/-- The tags that a pass accepts and that no removed region takes along. -/
def Pass.reachedTags (pass : Pass) (regions : List Region) (tags : List Tag) : List Tag :=
  (tags.filter fun tag => pass.accepts tag.directive).filter fun tag => !inSomeRegion (removedRegions regions) tag.span

theorem candidates_eq_reachedTags {scan : RegionScan} (h : scanRegions text (scanTags text) = .ok scan)
    (keepIncludes : Bool) (henabled : (keepIncludes && pass == .includeImport) = false) :
    pass.candidates keepIncludes scan.regions (scanTags text) = pass.reachedTags scan.regions (scanTags text) := by
  rw [Pass.candidates, Pass.reachedTags, List.filter_filter]
  refine List.filter_congr fun tag htag => ?_
  rw [Pass.handles, henabled, Bool.not_false, Bool.and_true, Bool.and_comm]
  cases haccepts : pass.accepts tag.directive with
  | false => rw [Bool.and_false, Bool.and_false]
  | true =>
    rw [Bool.and_true, Bool.and_true, Bool.eq_iff_iff, decide_eq_true_eq, Bool.not_eq_true',
      spare_cuts_iff h htag (Pass.marker?_of_accepts haccepts)]

/-- The report of a pass counts the tags that the pass reaches, and as left alone those in protected regions and
the module fragments outside all regions but for the first. -/
structure PassReport.CountsTags (regions : List Region) (tags : List Tag) (report : PassReport) : Prop where
  total : report.settled + report.skipped = (report.pass.reachedTags regions tags).length
  skipped : report.skipped = ((report.pass.reachedTags regions tags).filter fun tag =>
      inSomeRegion (protectedRegions regions) tag.span).length +
    if report.pass = .moduleFragment then (outsideTags regions (report.pass.reachedTags regions tags)).length - 1 else 0

/-- What the report of a pass says about the regions and tags of a header. -/
def PassReport.Accounts (keepIncludes : Bool) (regions : List Region) (tags : List Tag) (report : PassReport) : Prop :=
  match report.pass with
  | .unwrapRegions => report.settled = (protectedRegions regions).length ∧ report.skipped = 0
  | .removeExcluded => report.settled = (removedRegions regions).length ∧ report.skipped = 0
  | .includeImport =>
    if keepIncludes then report.settled = 0 ∧ report.skipped = 0 else report.CountsTags regions tags
  | .metatagPrompt => report.settled + report.skipped ≤ 1
  | _ => report.CountsTags regions tags

/-- Of the tags that a pass reaches, those in no region are those in no protected one. -/
theorem length_reachedTags (pass : Pass) (regions : List Region) (tags : List Tag) :
    (pass.reachedTags regions tags).length =
      ((pass.reachedTags regions tags).filter fun tag => inSomeRegion (protectedRegions regions) tag.span).length +
        (outsideTags regions (pass.reachedTags regions tags)).length := by
  rw [List.length_eq_length_filter_add fun tag : Tag => inSomeRegion (protectedRegions regions) tag.span]
  congr 2
  refine List.filter_congr fun tag htag => ?_
  have hreached := (List.mem_filter.mp htag).2
  rw [Bool.not_eq_true'] at hreached
  rw [inSomeRegion_eq regions, hreached, Bool.false_or]

theorem Multiplicity.length_chosen_add_surplus (multiplicity : Multiplicity) (tags : List Tag) :
    (multiplicity.chosen tags).length + (multiplicity.surplus tags).length = tags.length := by
  cases multiplicity with
  | first => rw [chosen, surplus, ← List.length_append, List.take_append_drop]
  | all => rfl

theorem Multiplicity.length_surplus (multiplicity : Multiplicity) (tags : List Tag) :
    (multiplicity.surplus tags).length = if multiplicity = .first then tags.length - 1 else 0 := by
  cases multiplicity with
  | first => exact List.length_drop
  | all => rfl

/-- A pass counts the tags that it reaches. -/
theorem outcome_countsTags {scan : RegionScan} (h : scanRegions text (scanTags text) = .ok scan) (keepIncludes : Bool)
    (hpass : pass ∈ tagPasses) (henabled : (keepIncludes && pass == .includeImport) = false) :
    (pass.outcome keepIncludes scan.regions (scanTags text)).CountsTags scan.regions (scanTags text) := by
  have hcandidates := candidates_eq_reachedTags h keepIncludes henabled
  have hopen : pass.openTags keepIncludes scan.regions (scanTags text) =
      outsideTags scan.regions (pass.reachedTags scan.regions (scanTags text)) := by
    rw [← hcandidates]
    exact (Draft.outsideTags_candidates (.ofScan h) keepIncludes pass).symm
  have hsplit := length_reachedTags pass scan.regions (scanTags text)
  have hchosen := pass.multiplicity.length_chosen_add_surplus
    (outsideTags scan.regions (pass.reachedTags scan.regions (scanTags text)))
  have hfirst : pass.multiplicity = .first ↔ pass = .moduleFragment := by
    revert hpass
    cases pass <;> decide
  rw [Multiplicity.length_surplus] at hchosen
  simp only [hfirst] at hchosen
  rw [Pass.outcome, Pass.settledTags, hopen, hcandidates]
  constructor <;> dsimp only <;> omega

/-- A pass that is not to settle anything counts nothing. -/
theorem outcome_of_kept (regions : List Region) (tags : List Tag) :
    Pass.outcome true .includeImport regions tags = .idle .includeImport := by
  simp [Pass.outcome, Pass.settledTags, Pass.openTags, Pass.candidates, Pass.handles, outsideTags, Multiplicity.chosen,
    Pass.multiplicity, PassReport.idle]

/-- The report of a pass over the tags accounts for the tags that it reaches. -/
theorem outcome_accounts {scan : RegionScan} (h : scanRegions text (scanTags text) = .ok scan) (keepIncludes : Bool)
    (hpass : pass ∈ tagPasses) :
    (pass.outcome keepIncludes scan.regions (scanTags text)).Accounts keepIncludes scan.regions (scanTags text) := by
  have hcounts := outcome_countsTags h keepIncludes hpass
  cases pass with
  | unwrapRegions | removeExcluded | metatagPrompt => simp [tagPasses] at hpass
  | moduleFragment | exportDeclaration | exportModule | exportImport | importTarget =>
    exact hcounts (Bool.and_false _)
  | includeImport =>
    cases keepIncludes with
    | true =>
      rw [outcome_of_kept]
      exact ⟨rfl, rfl⟩
    | false => exact hcounts rfl

/-! ## Edits -/

/-- Two markers go of a protected region, and a removed one goes at once. -/
theorem length_cuts (regions : List Region) :
    (cuts regions).length = 2 * (protectedRegions regions).length + (removedRegions regions).length := by
  rw [← regionsOf_unprotected]
  induction regions with
  | nil => rfl
  | cons region regions ih =>
    rw [← List.singleton_append, cuts_append, cuts_singleton, List.length_append, ih, Region.cuts]
    simp only [protectedRegions, regionsOf, List.filter_cons, List.singleton_append]
    cases region.kind.isProtected with
    | true =>
      simp only [if_true, Bool.not_true, Bool.false_eq_true, if_false, List.length_cons, List.length_nil]
      omega
    | false =>
      simp only [if_true, Bool.not_false, Bool.false_eq_true, if_false, List.length_cons, List.length_nil]
      omega

/-- Every tag that is settled has one text in its place. -/
theorem length_settlements (text : Text) (regions : List Region)
    (h : ∀ tag ∈ tags, ∃ pass : Pass, pass.accepts tag.directive = true) :
    (settlements text regions tags).length = tags.length := by
  induction tags with
  | nil => rfl
  | cons tag tags ih =>
    obtain ⟨⟨pass, haccepts⟩, hrest⟩ := List.forall_mem_cons.mp h
    obtain ⟨interface, hinterface⟩ := exists_interface haccepts text regions
    have hcons : settlements text regions (tag :: tags) = ⟨tag.span, interface⟩ :: settlements text regions tags := by
      rw [settlements, List.filterMap_cons, hinterface]
      rfl
    rw [hcons, List.length_cons, List.length_cons, ih hrest]

namespace Draft

variable {draft next : Draft} {report : PassReport}

/-- Stripping the prompt makes an edit where it counts a prompt as settled, and comes to one prompt at most. -/
theorem changes_stripPrompt (h : draft.stripPrompt = .ok (next, report)) :
    next.source.changes = draft.source.changes + report.settled ∧ report.pass = .metatagPrompt ∧
      report.settled + report.skipped ≤ 1 := by
  rcases stripPrompt_cases h with
    ⟨-, rfl, rfl⟩ | ⟨range, -, ⟨-, rfl, rfl⟩ | ⟨-, rfl, edit, happly⟩⟩
  · exact ⟨rfl, rfl, by decide⟩
  · exact ⟨rfl, rfl, by decide⟩
  · obtain ⟨source, tags, hreplace, -, rfl⟩ := apply_eq_ok_iff.mp happly
    obtain ⟨_, _, _, -, -, -, -, -, -, rfl⟩ := SourceText.replace_eq_ok_iff.mp hreplace
    exact ⟨rfl, rfl, by decide⟩

end Draft

/-- The places that passes over the tags settle are those of the tags that they settle. -/
theorem settled_outcomes (keepIncludes : Bool) (passes : List Pass) (regions : List Region) (tags : List Tag)
    (report : PassReport) :
    (passes.map (fun pass => pass.outcome keepIncludes regions tags) ++ [report]).foldr
        (fun report count => report.settled + count) 0 =
      (passes.flatMap fun pass => pass.settledTags keepIncludes regions tags).length + report.settled := by
  induction passes with
  | nil => simp
  | cons pass passes ih =>
    rw [List.map_cons, List.cons_append, List.foldr_cons, ih, List.flatMap_cons, List.length_append, Pass.outcome]
    exact (Nat.add_assoc _ _ _).symm

/-- The reports of a conversion account for every region, tag and edit.

There is one report for each pass, in the order of the passes. The first two count the protected and the removed
regions; each pass over the tags counts the tags that it reaches, and the last pass at most one prompt. The text is
edited once for each place settled, and once more for each protected region. -/
theorem reports_account (options : TransformOptions) (text : Text) {result : Transformation}
    (h : transform options text = .ok result) : ∃ scan, scanRegions text (scanTags text) = .ok scan ∧
      result.reports.map PassReport.pass = Pass.order ∧
      (∀ report ∈ result.reports, report.Accounts options.disableIncludeImport scan.regions (scanTags text)) ∧
      result.changes = result.settled + (protectedRegions scan.regions).length := by
  obtain ⟨⟨draft, reports⟩, hfinal, hresult⟩ := bind_eq_ok_iff.mp h
  cases hresult
  obtain ⟨scan, hscan, -⟩ := finalDraft_eq_ok_iff.mp hfinal
  obtain ⟨mid, last, report, hsettles, -, hlast, hfinal'⟩ := exists_finalDraft options hscan
  rw [hfinal] at hfinal'
  cases hfinal'
  obtain ⟨hchanges, hpass, hprompt⟩ := Draft.changes_stripPrompt hlast
  refine ⟨scan, hscan, ?_, ?_, ?_⟩
  · simp [hpass, Pass.outcome, tagPasses, Pass.order]
  · simp only [List.cons_append, List.forall_mem_cons, List.forall_mem_append, List.forall_mem_map]
    refine ⟨⟨rfl, rfl⟩, ⟨?_, rfl⟩, fun pass hmem => outcome_accounts hscan _ hmem, ?_, by simp⟩
    · rw [regionsOf_unprotected]
    · rw [PassReport.Accounts, hpass]
      exact hprompt
  · have hsettled := settled_outcomes options.disableIncludeImport tagPasses scan.regions (scanTags text) report
    have hcuts := length_cuts scan.regions
    have hsubs : mid.source.changes = (settlements text scan.regions (tagPasses.flatMap fun pass =>
        pass.settledTags options.disableIncludeImport scan.regions (scanTags text)).reverse ++ cuts scan.regions).length :=
      hsettles.sweeps.changes
    rw [List.length_append, length_settlements, List.length_reverse] at hsubs
    · rw [← regionsOf_unprotected] at hcuts
      simp only [Transformation.settled, List.cons_append, List.foldr_cons]
      rw [hsettled, hchanges, hsubs]
      simp only [protectedRegions] at hcuts ⊢
      omega
    · intro tag htag
      obtain ⟨pass, -, hsettledTag⟩ := List.mem_flatMap.mp (List.mem_reverse.mp htag)
      exact ⟨pass, Draft.accepts_of_mem_settledTags hsettledTag⟩

/-- A header with two module fragments, and with an exported declaration in a preserved region, in a removed one and
outside. -/
def countedHeader : Text :=
  ("/*[module]*/\n/*[ignore begin]*/\n/*[export]*/ int a;\n/*[ignore end]*/\n/*[module]*/\n" ++
    "/*[exclude begin]*//*[export]*/ int b;/*[exclude end]*/\n/*[export]*/ int c;\n").toList

theorem reports_account_countedHeader : ∃ result scan, transform {} countedHeader = .ok result ∧
    scanRegions countedHeader (scanTags countedHeader) = .ok scan ∧
    (∀ report ∈ result.reports, report.Accounts false scan.regions (scanTags countedHeader)) ∧
    result.changes = result.settled + 1 := by
  have hregions : (scanRegions countedHeader (scanTags countedHeader)).toOption.map
      (fun scan => (protectedRegions scan.regions).length) = some 1 := by decide +kernel
  obtain ⟨scan, hscan, hlength⟩ := Option.map_eq_some_iff.mp hregions
  obtain ⟨result, hresult⟩ := exists_transform {} (eq_ok_of_toOption hscan)
  obtain ⟨scan', hscan', -, haccounts, hchanges⟩ := reports_account {} countedHeader hresult
  cases (eq_ok_of_toOption hscan).symm.trans hscan'
  exact ⟨result, scan, hresult, hscan', haccounts, hlength ▸ hchanges⟩

end TaggedHeader
