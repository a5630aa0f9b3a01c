import Mathlib.Data.List.Sort
import TaggedHeader.Proofs.Safety

/-!
# The diagnostics of a header

Three stages of a conversion report tags: the scan of the regions the markers without partner, the draft
before the first pass the unknown directives, and the pass of the module fragment those that are too many.
No tag is reported twice, and tags stand in order, so the diagnostics sorted by place are those that one
walk over the tags of the header lists.
-/

namespace TaggedHeader

open Text

/-- Why a tag outside the regions is reported, if it is. -/
def leftCause? (regions : List Region) (tags : List Tag) (tag : Tag) (index : Nat) :
    Option Diagnostic.Cause :=
  match tag.directive with
  | .unknown => if tag.payload = [] then none else some (.unknownDirective tag.payload)
  | .moduleFragment _ =>
    if (outsideTags regions tags).find? (Pass.moduleFragment.accepts ·.directive) = some tag then none
    else some .duplicateModuleFragment
  | .excludeBegin | .excludeEnd | .ignoreBegin | .ignoreEnd => unpairedCause? tags index
  | .exportDeclaration | .exportModule _ | .exportImport _ | .importTarget _ | .literal
  | .includeHeader _ => none

/-- The diagnostics that a walk over the tags lists, given why each tag is reported. -/
def listed (text : Text) (tags : List Tag) (cause? : Tag → Nat → Option Diagnostic.Cause) :
    List Diagnostic :=
  tags.zipIdx.filterMap fun (tag, index) => (cause? tag index).map fun cause =>
    ⟨cause, lineOf text tag.origin, columnOf text tag.origin⟩

/-- The diagnostics of a header: of each tag outside the regions that is to be reported, in order. -/
def leftAsIs (text : Text) (regions : List Region) (tags : List Tag) : List Diagnostic :=
  listed text tags fun tag index =>
    if inSomeRegion regions tag.span then none else leftCause? regions tags tag index

/-- A diagnostic about a place before that of another one. -/
def Diagnostic.IsBefore (first second : Diagnostic) : Prop :=
  first.line < second.line ∨ first.line = second.line ∧ first.column < second.column

namespace Diagnostic

theorem precedes_iff {first second : Diagnostic} : first.precedes second = true ↔
    first.line < second.line ∨ first.line = second.line ∧ first.column ≤ second.column := by
  simp [precedes]

theorem IsBefore.precedes {first second : Diagnostic} (h : first.IsBefore second) :
    first.precedes second = true :=
  precedes_iff.mpr (h.imp_right fun ⟨hline, hcolumn⟩ => ⟨hline, Nat.le_of_lt hcolumn⟩)

theorem IsBefore.not_precedes {first second : Diagnostic} (h : first.IsBefore second) :
    ¬ second.precedes first = true := by
  rw [precedes_iff]
  simp only [IsBefore] at h
  omega

/-- Sorting by place is by a total order. -/
theorem pairwise_mergeSort (diagnostics : List Diagnostic) :
    (diagnostics.mergeSort precedes).Pairwise fun first second => first.precedes second = true := by
  apply List.pairwise_mergeSort
  · intro first second third
    simp only [precedes_iff]
    omega
  · intro first second
    rw [Bool.or_eq_true, precedes_iff, precedes_iff]
    omega

/-- Diagnostics in strict order are what sorting makes of any rearrangement of them. -/
theorem mergeSort_eq_of_perm {given ordered : List Diagnostic} (hperm : given.Perm ordered)
    (hordered : ordered.Pairwise IsBefore) : given.mergeSort precedes = ordered := by
  have hsorted := (List.mergeSort_perm given precedes).trans hperm
  refine List.Perm.eq_of_pairwise (fun first second hfirst hsecond hle hge => ?_) (pairwise_mergeSort given)
    (hordered.imp IsBefore.precedes) hsorted
  have hsymm : Std.Symm fun first second : Diagnostic => first.IsBefore second ∨ second.IsBefore first :=
    ⟨fun _ _ => Or.symm⟩
  have hdistinct : ordered.Pairwise fun first second => first.IsBefore second ∨ second.IsBefore first :=
    hordered.imp .inl
  by_contra hne
  rcases hdistinct.forall (hsorted.subset hfirst) hsecond hne with hbefore | hbefore
  · exact hbefore.not_precedes hge
  · exact hbefore.not_precedes hle

end Diagnostic

/-- Two selections that never choose the same item choose together what one selection for both does. -/
theorem filterMap_append_perm {α β : Type} {first second : α → Option β} {items : List α}
    (h : ∀ item ∈ items, first item = none ∨ second item = none) :
    (items.filterMap first ++ items.filterMap second).Perm
      (items.filterMap fun item => first item <|> second item) := by
  induction items with
  | nil => exact .nil
  | cons item items ih =>
    obtain ⟨hitem, hitems⟩ := List.forall_mem_cons.mp h
    have hrest := ih hitems
    cases hfirst : first item with
    | some chosen =>
      have hsecond : second item = none := hitem.resolve_left (by simp [hfirst])
      simpa [List.filterMap_cons, hfirst, hsecond] using hrest
    | none =>
      cases hsecond : second item with
      | some chosen =>
        simpa [List.filterMap_cons, hfirst, hsecond] using List.perm_middle.trans (hrest.cons chosen)
      | none => simpa [List.filterMap_cons, hfirst, hsecond] using hrest

section Listed

variable {text : Text} {regions : List Region} {tags : List Tag}
  {cause? other? : Tag → Nat → Option Diagnostic.Cause}

/-- A walk over the tags of a header lists diagnostics in strict order. -/
theorem listed_ordered (htags : TagsIn text tags) (cause? : Tag → Nat → Option Diagnostic.Cause) :
    (listed text tags cause?).Pairwise Diagnostic.IsBefore := by
  have horigins : (tags.zipIdx).Pairwise fun first second => first.1.origin < second.1.origin := by
    rw [← List.pairwise_map (f := Prod.fst) (R := fun first second : Tag => first.origin < second.origin),
      List.zipIdx_map_fst]
    refine htags.ordered.imp_of_mem fun {first second} hfirst hsecond hle => ?_
    have hnonempty := (htags.standsIn first hfirst).start_lt_stop
    rw [(htags.standsIn first hfirst).origin, (htags.standsIn second hsecond).origin]
    omega
  refine horigins.filterMap _ fun first second hlt _ hfirst _ hsecond => ?_
  obtain ⟨cause, -, rfl⟩ := Option.map_eq_some_iff.mp hfirst
  obtain ⟨cause', -, rfl⟩ := Option.map_eq_some_iff.mp hsecond
  exact LineTable.point_lt hlt

theorem listed_congr (h : ∀ index tag, tags[index]? = some tag → cause? tag index = other? tag index) :
    listed text tags cause? = listed text tags other? := by
  apply List.filterMap_congr
  rintro ⟨tag, index⟩ hentry
  simp only [h index tag (List.mem_zipIdx_iff_getElem?.mp hentry)]

/-- Two walks that report different tags list together what one walk for both lists. -/
theorem listed_append_perm (h : ∀ index tag, tags[index]? = some tag →
      cause? tag index = none ∨ other? tag index = none) :
    (listed text tags cause? ++ listed text tags other?).Perm
      (listed text tags fun tag index => cause? tag index <|> other? tag index) := by
  unfold listed
  refine (filterMap_append_perm ?_).trans (.of_eq (List.filterMap_congr ?_))
  · rintro ⟨tag, index⟩ hentry
    simp only [Option.map_eq_none_iff]
    exact h index tag (List.mem_zipIdx_iff_getElem?.mp hentry)
  · rintro ⟨tag, index⟩ -
    cases hcause : cause? tag index <;> simp [hcause]

/-- The tags with a property, reported for one cause each, are a walk that reports those tags. -/
theorem map_filter_eq_listed (text : Text) (tags : List Tag) (p : Tag → Bool)
    (cause : Tag → Diagnostic.Cause) :
    (tags.filter p).map (fun tag => .located (.ofText text) tag.origin (cause tag)) =
      listed text tags fun tag _ => if p tag then some (cause tag) else none := by
  have hwalk : listed text tags (fun tag _ => if p tag then some (cause tag) else none) =
      (tags.zipIdx.map Prod.fst).filterMap fun tag => (if p tag then some (cause tag) else none).map fun cause =>
        ⟨cause, lineOf text tag.origin, columnOf text tag.origin⟩ := by
    rw [List.filterMap_map]
    rfl
  rw [hwalk, List.zipIdx_map_fst, ← List.filterMap_eq_map, List.filterMap_filter]
  apply List.filterMap_congr
  intro tag _
  by_cases hp : p tag = true
  · simp [hp, Diagnostic.located, LineTable.point_ofText]
  · simp [hp]

end Listed

section Stages

variable {text : Text} {regions : List Region} {tags : List Tag}

/-- The markers outside the regions that the scan reports are those without partner. -/
theorem unpaired_eq_listed {pairing : Pairing} (h : pairing.Describes text tags 0) :
    (pairing.unpaired.filter fun entry => !inSomeRegion regions entry.1).map Prod.snd =
      listed text tags fun tag index =>
        if inSomeRegion regions tag.span then none else unpairedCause? tags index := by
  rw [h.unpaired, unpairedFrom, List.drop_zero, List.filter_filterMap, List.map_filterMap]
  apply List.filterMap_congr
  rintro ⟨tag, index⟩ _
  cases hcause : unpairedCause? tags index with
  | none => simp [hcause]
  | some cause =>
    by_cases hinside : inSomeRegion regions tag.span = true
    · simp [hinside, Option.filter]
    · simp [hcause, hinside, Option.filter, Diagnostic.located, LineTable.point_ofText]

/-- A module fragment outside the regions that is not the first one. -/
def isSurplus (regions : List Region) (tags : List Tag) (tag : Tag) : Bool :=
  Pass.moduleFragment.accepts tag.directive && !inSomeRegion regions tag.span &&
    (outsideTags regions tags).find? (Pass.moduleFragment.accepts ·.directive) != some tag

/-- Without repetition, all items but the first are those that are not the first. -/
theorem drop_one_eq_filter {items : List Tag} (h : items.Nodup) :
    items.drop 1 = items.filter fun item => items.head? != some item := by
  cases items with
  | nil => rfl
  | cons first rest =>
    obtain ⟨hfirst, -⟩ := List.nodup_cons.mp h
    rw [List.filter_cons_of_neg (by simp), eq_comm]
    refine List.filter_eq_self.mpr fun item hitem => ?_
    have hne : first ≠ item := fun heq => hfirst (heq ▸ hitem)
    simpa using hne

/-- The passes over the tags find surplus tags among the module fragments only. -/
theorem flatMap_surplusTags (h : tags.Nodup) (keepIncludes : Bool) :
    (tagPasses.flatMap fun pass => pass.surplusTags keepIncludes regions tags) =
      tags.filter (isSurplus regions tags) := by
  have hhandles : Pass.moduleFragment.handles keepIncludes = Pass.moduleFragment.accepts := by
    funext directive
    simp [Pass.handles]
  have hopen : Pass.moduleFragment.openTags keepIncludes regions tags =
      (outsideTags regions tags).filter (Pass.moduleFragment.accepts ·.directive) := by
    rw [Pass.openTags, hhandles, outsideTags, outsideTags, List.filter_comm]
  have honly : (tagPasses.flatMap fun pass => pass.surplusTags keepIncludes regions tags) =
      (Pass.moduleFragment.openTags keepIncludes regions tags).drop 1 := by
    simp [tagPasses, Pass.surplusTags, Pass.multiplicity, Multiplicity.surplus]
  have hnodup : ((outsideTags regions tags).filter (Pass.moduleFragment.accepts ·.directive)).Nodup :=
    (h.filter _).filter _
  rw [honly, hopen, drop_one_eq_filter hnodup, List.head?_filter, outsideTags, List.filter_filter,
    List.filter_filter]
  apply List.filter_congr
  intro tag _
  rw [isSurplus, outsideTags]
  ac_rfl

/-- A tag that is neither a begin nor an end marker is not without partner. -/
theorem unpairedCause?_eq_none {index : Nat} {tag : Tag} (htag : tags[index]? = some tag)
    (h : tag.directive.marker? = none ∨ tag.directive.marker? = some .block) :
    unpairedCause? tags index = none := by
  have hmarker : markerAt tags index = tag.directive.marker? := by
    rw [markerAt, htag, Option.bind_some]
  rcases h with hnone | hblock
  · rw [unpairedCause?, hmarker, hnone]
  · rw [unpairedCause?, hmarker, hblock]

/-- The three stages report different tags, and together what a walk over the tags lists. -/
theorem stages_perm (text : Text) (regions : List Region) (tags : List Tag) :
    (listed text tags (fun tag index =>
        if inSomeRegion regions tag.span then none else unpairedCause? tags index) ++
      listed text tags (fun tag _ =>
        if Draft.isReportedUnknown regions tag then some (.unknownDirective tag.payload) else none) ++
      listed text tags (fun tag _ =>
        if isSurplus regions tags tag then some .duplicateModuleFragment else none)).Perm
      (leftAsIs text regions tags) := by
  refine ((listed_append_perm ?_).append_right _).trans ((listed_append_perm ?_).trans (.of_eq (listed_congr ?_)))
  · intro index tag htag
    by_cases hunknown : tag.directive = .unknown
    · left
      rw [unpairedCause?_eq_none htag (by simp [hunknown, Directive.marker?]), ite_self]
    · right
      simp [Draft.isReportedUnknown, hunknown]
  · intro index tag htag
    by_cases hsurplus : Pass.moduleFragment.accepts tag.directive = true
    · left
      cases hdirective : tag.directive with
      | moduleFragment fragment =>
        rw [unpairedCause?_eq_none htag (by simp [hdirective, Directive.marker?])]
        simp [Draft.isReportedUnknown, hdirective]
      | _ =>
        rw [hdirective] at hsurplus
        cases hsurplus
    · right
      simp [isSurplus, hsurplus]
  · intro index tag htag
    by_cases hinside : inSomeRegion regions tag.span = true
    · simp [hinside, Draft.isReportedUnknown, isSurplus]
    · rw [if_neg hinside, leftCause?]
      cases hdirective : tag.directive with
      | unknown =>
        rw [unpairedCause?_eq_none htag (by simp [hdirective, Directive.marker?])]
        by_cases hpayload : tag.payload = [] <;>
          simp [Draft.isReportedUnknown, isSurplus, hdirective, Pass.accepts, hinside, hpayload]
      | moduleFragment fragment =>
        rw [unpairedCause?_eq_none htag (by simp [hdirective, Directive.marker?])]
        have haccepts : Pass.moduleFragment.accepts (.moduleFragment fragment) = true := rfl
        by_cases hfirst : (outsideTags regions tags).find? (Pass.moduleFragment.accepts ·.directive) = some tag <;>
          simp [Draft.isReportedUnknown, isSurplus, hdirective, haccepts, hinside, hfirst]
      | excludeBegin | excludeEnd | ignoreBegin | ignoreEnd =>
        simp [Draft.isReportedUnknown, isSurplus, hdirective, Pass.accepts, hinside]
      | exportDeclaration | exportModule | exportImport | importTarget | literal | includeHeader =>
        rw [unpairedCause?_eq_none htag (by simp [hdirective, Directive.marker?])]
        simp [Draft.isReportedUnknown, isSurplus, hdirective, Pass.accepts]

end Stages

/-- Stripping the prompt reports nothing. -/
theorem Draft.diagnostics_stripPrompt {draft next : Draft} {report : PassReport}
    (h : draft.stripPrompt = .ok (next, report)) : next.diagnostics = draft.diagnostics := by
  rcases stripPrompt_eq_ok h with rfl | ⟨range, edit, -, happly⟩
  · rfl
  · obtain ⟨source, tags, -, -, rfl⟩ := apply_eq_ok_iff.mp happly
    rfl

/-- A scan that succeeds reports the markers without partner outside its regions. -/
theorem diagnostics_scanRegions {text : Text} {scan : RegionScan}
    (h : scanRegions text (scanTags text) = .ok scan) :
    scan.diagnostics = listed text (scanTags text) fun tag index =>
      if inSomeRegion scan.regions tag.span then none else unpairedCause? (scanTags text) index := by
  obtain ⟨pairing, hpairing, hdescribes⟩ := exists_pairing text
  rw [scanRegions_eq hpairing] at h
  cases hnesting : pairing.nesting? with
  | none =>
    rw [hnesting] at h
    cases h
    exact unpaired_eq_listed hdescribes
  | some found =>
    rw [hnesting] at h
    cases h

/-- A header whose regions can be found is converted with the diagnostics of one walk over its tags. -/
theorem exists_transform_diagnostics {text : Text} {scan : RegionScan} (options : TransformOptions)
    (h : scanRegions text (scanTags text) = .ok scan) : ∃ result, transform options text = .ok result ∧
      result.diagnostics = leftAsIs text scan.regions (scanTags text) := by
  obtain ⟨mid, last, report, -, hdiagnostics, hlast, hfinal⟩ := exists_finalDraft options h
  obtain ⟨reports, hfinal⟩ : ∃ reports, finalDraft options text = .ok (last, reports) := ⟨_, hfinal⟩
  refine ⟨⟨last.source.current, last.sortedDiagnostics, reports, last.source.changes⟩, ?_, ?_⟩
  · simp only [transform, hfinal, bind, Except.bind, pure, Except.pure]
  · have hnodup : (scanTags text).Nodup := (Layout.ofScan h).tags_nodup
    have hunknown := map_filter_eq_listed text (scanTags text) (Draft.isReportedUnknown scan.regions)
      fun tag => .unknownDirective tag.payload
    have hsurplus := map_filter_eq_listed text (scanTags text) (isSurplus scan.regions (scanTags text))
      fun _ => .duplicateModuleFragment
    have hstages : last.diagnostics.Perm (leftAsIs text scan.regions (scanTags text)) := by
      rw [Draft.diagnostics_stripPrompt hlast, hdiagnostics, flatMap_surplusTags hnodup]
      simp only [Draft.ofScan, diagnostics_scanRegions h, hunknown]
      unfold surplusDiagnostic
      rw [hsurplus]
      exact stages_perm text scan.regions (scanTags text)
    exact Diagnostic.mergeSort_eq_of_perm hstages (listed_ordered (scanTags_tagsIn text) _)

/-- The diagnostics of a conversion are exactly the tags left as they are outside the regions.

They are those that one walk over the tags of the header lists: unknown directives that are not empty,
markers without partner, and module fragments behind the first one, each with its line and column in the
header as it was given. They stand in strict order, and no option changes them. -/
theorem diagnostics_eq_leftAsIs (options : TransformOptions) (text : Text) {result : Transformation}
    (h : transform options text = .ok result) :
    ∃ scan, scanRegions text (scanTags text) = .ok scan ∧
      result.diagnostics = leftAsIs text scan.regions (scanTags text) ∧
      result.diagnostics.Pairwise Diagnostic.IsBefore ∧
      ∀ options', ∃ result', transform options' text = .ok result' ∧
        result'.diagnostics = result.diagnostics := by
  have hscanned := h
  simp only [transform, bind_eq_ok_iff] at hscanned
  obtain ⟨⟨draft, reports⟩, hfinal, -⟩ := hscanned
  obtain ⟨scan, hscan, -⟩ := finalDraft_eq_ok_iff.mp hfinal
  have hwalk : ∀ {options result}, transform options text = .ok result →
      result.diagnostics = leftAsIs text scan.regions (scanTags text) := fun {options result} hresult => by
    obtain ⟨result', hresult', hdiagnostics⟩ := exists_transform_diagnostics options hscan
    rw [hresult] at hresult'
    cases hresult'
    exact hdiagnostics
  refine ⟨scan, hscan, hwalk h, hwalk h ▸ listed_ordered (scanTags_tagsIn text) _, fun options' => ?_⟩
  obtain ⟨result', hresult', hdiagnostics⟩ := exists_transform_diagnostics options' hscan
  exact ⟨result', hresult', hdiagnostics.trans (hwalk h).symm⟩

/-- A header with each kind of tag that is reported, and with an unknown tag in a preserved region. -/
def reportedHeader : Text :=
  ("/*[module]*//*[ignore end]*/\n/*[y]*//*[module]*/" ++
    "/*[ignore begin]*//*[x]*//*[ignore end]*//*[exclude begin]*/").toList

theorem diagnostics_eq_leftAsIs_reportedHeader : ∃ result, transform {} reportedHeader = .ok result ∧
    result.diagnostics = [⟨.unmatchedEnd .preserved, 1, 13⟩, ⟨.unknownDirective "y".toList, 2, 1⟩,
      ⟨.duplicateModuleFragment, 2, 8⟩, ⟨.unclosedRegion .removed, 2, 61⟩] := by
  have hregions : (scanRegions reportedHeader (scanTags reportedHeader)).toOption.map RegionScan.regions =
      some [⟨.preserved, ⟨48, 89⟩, ⟨66, 73⟩⟩] := by decide +kernel
  obtain ⟨scan, hscan, hregions⟩ := Option.map_eq_some_iff.mp hregions
  obtain ⟨result, hresult⟩ := exists_transform {} (eq_ok_of_toOption hscan)
  obtain ⟨scan', hscan', hdiagnostics, -, -⟩ := diagnostics_eq_leftAsIs {} reportedHeader hresult
  rw [eq_ok_of_toOption hscan] at hscan'
  cases hscan'
  refine ⟨result, hresult, hdiagnostics.trans ?_⟩
  rw [hregions]
  decide +kernel

end TaggedHeader
