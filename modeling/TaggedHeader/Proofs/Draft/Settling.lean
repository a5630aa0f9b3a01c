import TaggedHeader.Proofs.Draft.Landing

/-!
# Settling the tags

Six passes go over the pending tags. Each settles the tags that it accepts and that lie in no region; the
pass of the module fragment settles the first of them only. A settled tag is one more substitution, and no
pass accepts what another one does, so what a pass settles does not depend on the passes before it.
-/

namespace TaggedHeader

open Text Substitution

/-- The tags that lie in no region. -/
def outsideTags (regions : List Region) (tags : List Tag) : List Tag :=
  tags.filter fun tag => !inSomeRegion regions tag.span

/-- Those of the tags that a pass may settle which it does settle. -/
def Multiplicity.chosen : Multiplicity → List Tag → List Tag
  | .first, tags => tags.take 1
  | .all, tags => tags

/-- Those of the tags that a pass may settle which are too many. -/
def Multiplicity.surplus : Multiplicity → List Tag → List Tag
  | .first, tags => tags.drop 1
  | .all, _ => []

namespace Pass

/-- Whether a pass goes over the tags. -/
def settlesTags : Pass → Bool
  | .unwrapRegions | .removeExcluded | .metatagPrompt => false
  | _ => true

/-- Whether a pass settles a directive, given that inclusions may be kept. -/
def handles (keepIncludes : Bool) (pass : Pass) (directive : Directive) : Bool :=
  pass.accepts directive && !(keepIncludes && pass == .includeImport)

/-- The tags that a pass comes to: those it handles and that are not gone with the regions. -/
def candidates (keepIncludes : Bool) (pass : Pass) (regions : List Region) (tags : List Tag) : List Tag :=
  tags.filter fun tag => pass.handles keepIncludes tag.directive && decide (Spare (cuts regions) tag.span)

/-- The tags outside the regions that a pass handles. -/
def openTags (keepIncludes : Bool) (pass : Pass) (regions : List Region) (tags : List Tag) : List Tag :=
  outsideTags regions (tags.filter fun tag => pass.handles keepIncludes tag.directive)

/-- The tags that a pass settles. -/
def settledTags (keepIncludes : Bool) (pass : Pass) (regions : List Region) (tags : List Tag) : List Tag :=
  pass.multiplicity.chosen (pass.openTags keepIncludes regions tags)

/-- The tags that a pass would settle if they were the first of their kind. -/
def surplusTags (keepIncludes : Bool) (pass : Pass) (regions : List Region) (tags : List Tag) : List Tag :=
  pass.multiplicity.surplus (pass.openTags keepIncludes regions tags)

/-- The report of a pass over the tags. -/
def outcome (keepIncludes : Bool) (pass : Pass) (regions : List Region) (tags : List Tag) : PassReport :=
  ⟨pass, (pass.settledTags keepIncludes regions tags).length,
    (pass.candidates keepIncludes regions tags).length - (pass.settledTags keepIncludes regions tags).length⟩

theorem accepts_of_handles {keepIncludes : Bool} {pass : Pass} {directive : Directive}
    (h : pass.handles keepIncludes directive = true) : pass.accepts directive = true :=
  (Bool.and_eq_true_iff.mp h).1

/-- No two passes settle the same directive. -/
theorem eq_of_accepts {pass pass' : Pass} {directive : Directive} (h : pass.accepts directive = true)
    (h' : pass'.accepts directive = true) : pass = pass' := by
  cases directive <;> cases pass <;> cases h <;> cases pass' <;> cases h' <;> rfl

end Pass

/-- The passes over the tags, in the order they run. -/
def tagPasses : List Pass :=
  [.moduleFragment, .exportDeclaration, .exportModule, .exportImport, .importTarget, .includeImport]

/-- The diagnostic about a tag that is too many. -/
def surplusDiagnostic (lines : LineTable) (tag : Tag) : Diagnostic :=
  .located lines tag.origin .duplicateModuleFragment

namespace Multiplicity

variable {multiplicity : Multiplicity} {tags : List Tag}

theorem chosen_sublist (multiplicity : Multiplicity) (tags : List Tag) :
    (multiplicity.chosen tags).Sublist tags := by
  cases multiplicity with
  | first => exact List.take_sublist 1 tags
  | all => exact List.Sublist.refl tags

/-- Once the one place is settled, a further tag is too many. -/
theorem append_of_taken (tag : Tag) (hfirst : multiplicity = .first)
    (htaken : 0 < (multiplicity.chosen tags).length) :
    multiplicity.chosen (tags ++ [tag]) = multiplicity.chosen tags ∧
      multiplicity.surplus (tags ++ [tag]) = multiplicity.surplus tags ++ [tag] := by
  subst hfirst
  cases tags with
  | nil => simp [chosen] at htaken
  | cons first rest => simp [chosen, surplus]

/-- A further tag is settled as long as there is a place for it. -/
theorem append_of_free (tag : Tag)
    (hfree : ¬ (multiplicity = .first ∧ 0 < (multiplicity.chosen tags).length)) :
    multiplicity.chosen (tags ++ [tag]) = multiplicity.chosen tags ++ [tag] ∧
      multiplicity.surplus (tags ++ [tag]) = multiplicity.surplus tags := by
  cases multiplicity with
  | first =>
    cases tags with
    | nil => simp [chosen, surplus]
    | cons first rest => simp [chosen] at hfree
  | all => simp [chosen, surplus]

end Multiplicity

/-- A tag that a pass accepts has a text that takes its place. -/
theorem exists_interface {pass : Pass} {tag : Tag} (h : pass.accepts tag.directive = true) (text : Text)
    (regions : List Region) : ∃ interface, tag.interface? text regions = some interface := by
  by_cases hexport : tag.directive = .exportDeclaration
  · rw [Tag.interface?_of_export hexport]
    split <;> exact ⟨_, rfl⟩
  · rw [Tag.interface?_of_ne hexport]
    cases hdirective : tag.directive with
    | moduleFragment | exportDeclaration | exportModule | exportImport | importTarget | includeHeader =>
      exact ⟨_, rfl⟩
    | excludeBegin | excludeEnd | ignoreBegin | ignoreEnd | literal | unknown =>
      rw [hdirective] at h
      cases pass <;> cases h

namespace Layout

variable {layout : Layout} {settled : List Tag} {tag : Tag}

theorem cuts_subset (layout : Layout) (settled : List Tag) :
    ∀ cut ∈ cuts layout.regions, cut ∈ layout.substitutions settled :=
  fun _ hcut => List.mem_append_right _ hcut

/-- Settling other tags leaves a pending tag alone. -/
theorem spare_substitutions (hsettled : ∀ other ∈ settled, other ∈ layout.tags) (htag : tag ∈ layout.tags)
    (hspare : Spare (cuts layout.regions) tag.span) (hfresh : tag ∉ settled) :
    Spare (layout.substitutions settled) tag.span := by
  intro sub hsub
  rcases List.mem_append.mp hsub with hsub | hsub
  · obtain ⟨other, hother, interface, -, rfl⟩ := mem_settlements.mp hsub
    refine layout.tags_apart (hsettled other hother) htag ?_
    rintro rfl
    exact hfresh hother
  · exact hspare sub hsub

end Layout

/-- Settling a tag does not change whether a visible character follows a position outside of it. -/
theorem startsVisible_sweep_settled {text interface : Text} {subs : List Substitution} {tag : Tag}
    (htag : tag.StandsIn text) (hspare : Spare subs tag.span)
    (hsubs : ∀ sub ∈ subs, sub.span.start < sub.span.stop) (hinterface : startsVisible interface = true)
    {position : Nat} (hposition : IsBoundary text position)
    (hclear : tag.span.stop ≤ position ∨ position ≤ tag.span.start) :
    startsVisible (sweep (⟨tag.span, interface⟩ :: subs) position (behind position text)) =
      startsVisible (sweep subs position (behind position text)) := by
  rcases hclear with hle | hle
  · rw [sweep_cons_of_apart htag.start_lt_stop (.inl hle)]
  · obtain ⟨body, ⟨before, after, htext, hstart, hstop⟩, hvisible, -⟩ := htag.selects_visible
    obtain ⟨before', rest, htext', rfl⟩ := hposition
    rw [htext, List.append_assoc] at htext'
    obtain ⟨left, rfl, hrest⟩ := exists_append_of_size_le htext'.symm (by rw [hstart]; exact hle)
    rw [htext, List.append_assoc, htext', behind_append, hrest, ← List.append_assoc]
    refine startsVisible_sweep_cons ?_ hvisible hinterface hsubs hspare
    rw [← size_append, hstop, hstart]

namespace Draft

variable {layout : Layout} {settled : List Tag} {draft : Draft} {tag : Tag} {interface : Text}

/-- A draft whose regions are gone and in which some tags outside the regions are settled. -/
structure Settles (layout : Layout) (settled : List Tag) (draft : Draft) : Prop where
  sweeps : draft.Sweeps layout (layout.substitutions settled)
  nodup : settled.Nodup
  outside : ∀ tag ∈ settled, tag ∈ layout.tags ∧ inSomeRegion layout.regions tag.span = false
  follows : ∀ tag ∈ layout.tags, startsVisible (sweep (layout.substitutions settled) tag.span.stop
    (behind tag.span.stop layout.text)) = isFollowedByVisible layout.text layout.regions tag.span.stop
  rests : List.Forall₂ (layout.Rests settled) layout.regions draft.source.regions

namespace Settles

/-- Once the regions are gone, no tag is settled yet. -/
theorem nil (h : draft.Sweeps layout (cuts layout.regions)) : draft.Settles layout [] := by
  refine ⟨h, .nil, by simp, fun _ _ => rfl, ?_⟩
  rw [h.deletions fun cut hcut => text_eq_nil_of_mem_cuts hcut, List.forall₂_map_right_iff]
  exact List.forall₂_same.mpr fun region hregion => layout.rests_cuts h.fitsIn h.apart hregion

/-- Diagnostics are no part of what a sweep leaves. -/
theorem with_diagnostics (h : draft.Settles layout settled) (diagnostics : List Diagnostic) :
    { draft with diagnostics }.Settles layout settled :=
  ⟨⟨h.sweeps.fitsIn, h.sweeps.apart, h.sweeps.spare, h.sweeps.current, h.sweeps.tags, h.sweeps.regions,
    h.sweeps.deletions, h.sweeps.changes⟩, h.nodup, h.outside, h.follows, h.rests⟩

theorem spare (h : draft.Settles layout settled) (htag : tag ∈ layout.tags)
    (hspare : Spare (cuts layout.regions) tag.span) (hfresh : tag ∉ settled) :
    Spare (layout.substitutions settled) tag.span :=
  layout.spare_substitutions (fun other hother => (h.outside other hother).1) htag hspare hfresh

/-- The text that a draft finds for a tag is the one of the interface. -/
theorem replacement?_placed (h : draft.Settles layout settled) (htag : tag ∈ layout.tags) :
    draft.replacement? (tag.placed (layout.substitutions settled) layout.text) =
      .ok (tag.interface? layout.text layout.regions) := by
  have hnext := h.sweeps.charAt_place (layout.tagsIn.standsIn tag htag).isBoundary_stop
  have hfollows := h.follows tag htag
  rw [startsVisible] at hfollows
  unfold Draft.replacement?
  by_cases hexport : tag.directive = .exportDeclaration
  · rw [Tag.interface?_of_export hexport]
    simp only [Tag.placed, placeSpan, hexport, Directive.render?, if_true, hnext, hfollows, bind, Except.bind,
      pure, Except.pure]
    split <;> rfl
  · rw [Tag.interface?_of_ne hexport]
    simp only [Tag.placed]
    cases tag.directive.render? with
    | none => rfl
    | some rendered =>
      exact if_neg hexport

/-- Settling a pending tag outside the regions settles one more tag. -/
theorem apply (h : draft.Settles layout settled) (htag : tag ∈ layout.tags)
    (houtside : inSomeRegion layout.regions tag.span = false) (hfresh : tag ∉ settled)
    (hinterface : tag.interface? layout.text layout.regions = some interface) :
    ∃ edit next, draft.apply (tag.placed (layout.substitutions settled) layout.text).span interface =
      .ok (edit, next) ∧ next.Settles layout (tag :: settled) ∧ next.diagnostics = draft.diagnostics := by
  have hstands := layout.tagsIn.standsIn tag htag
  have hspare := h.spare htag (layout.spare_cuts_of_outside htag houtside) hfresh
  have hallows : layout.Allows (layout.substitutions settled) ⟨tag.span, interface⟩ := by
    refine ⟨⟨hstands.isBoundary_start, hstands.isBoundary_stop, hstands.start_lt_stop⟩, hspare,
      fun region hregion _ => ?_⟩
    have hfits := layout.fitsIn region hregion
    exact ((layout.outside_iff htag).mp houtside region hregion).of_encloses
      ⟨Nat.le_refl _, Nat.le_refl _⟩ ⟨Nat.le_of_lt hfits.opening_lt, Nat.le_of_lt hfits.closing_lt⟩
  obtain ⟨edit, next, happly, hmakes, hsweeps, hregions, hdiagnostics⟩ := h.sweeps.apply hallows
  have hsubs : layout.substitutions (tag :: settled) =
      ⟨tag.span, interface⟩ :: layout.substitutions settled := by
    simp [Layout.substitutions, settlements, hinterface]
  refine ⟨edit, next, happly, ⟨hsubs ▸ hsweeps, List.nodup_cons.mpr ⟨hfresh, h.nodup⟩,
    List.forall_mem_cons.mpr ⟨⟨htag, houtside⟩, h.outside⟩, fun other hother => ?_, ?_⟩, hdiagnostics⟩
  · rw [hsubs, ← h.follows other hother]
    exact startsVisible_sweep_settled hstands hallows.spare h.sweeps.start_lt_stop
      (startsVisible_of_interface? hinterface) (layout.tagsIn.standsIn other hother).isBoundary_stop
      (layout.stop_le_or_le_start htag hother)
  · rw [hregions, List.forall₂_map_right_iff]
    exact forall₂_imp_of_mem h.rests fun given hgiven current _ hrests =>
      layout.rests_settle h.sweeps.fitsIn h.sweeps.apart h.outside htag houtside hspare hsubs hmakes hgiven
        (h.sweeps.spare given hgiven) hrests

/-- What a pass does when it comes to a pending tag. -/
theorem settleTag_eq (h : draft.Settles layout settled) (htag : tag ∈ layout.tags)
    (hspare : Spare (cuts layout.regions) tag.span) (hfresh : tag ∉ settled)
    (hinterface : tag.interface? layout.text layout.regions = some interface) (lines : LineTable)
    (report : PassReport) :
    Draft.settleTag lines (draft, report) tag.origin =
      if inSomeRegion layout.regions tag.span then .ok (draft.skipped report)
      else if report.pass.multiplicity = .first ∧ 0 < report.settled then
        .ok ({ draft with diagnostics := draft.diagnostics ++ [surplusDiagnostic lines tag] }.skipped report)
      else (draft.apply (tag.placed (layout.substitutions settled) layout.text).span interface).map
        fun replaced => replaced.2.settled report := by
  have hpending := h.spare htag hspare hfresh
  obtain ⟨body, hbody⟩ := h.sweeps.exists_slice htag hpending
  have hprotected := h.sweeps.isProtected_placed (layout.cuts_subset settled) htag hpending
  have hreplacement := h.replacement?_placed htag
  rw [hinterface] at hreplacement
  simp only [Draft.settleTag, h.sweeps.find_origin htag hpending, hbody, hprotected, hreplacement, bind,
    Except.bind, pure, Except.pure]
  split
  · rfl
  · split
    · rfl
    · cases draft.apply (tag.placed (layout.substitutions settled) layout.text).span interface <;> rfl

end Settles

/-- What a pass over the tags has done when it has come to some of them. -/
structure SettledUpTo (layout : Layout) (lines : LineTable) (settled : List Tag)
    (diagnostics : List Diagnostic) (pass : Pass) (tags : List Tag) (state : Progress) : Prop where
  settles : state.1.Settles layout
    ((pass.multiplicity.chosen (outsideTags layout.regions tags)).reverse ++ settled)
  diagnostics : state.1.diagnostics = diagnostics ++
    (pass.multiplicity.surplus (outsideTags layout.regions tags)).map (surplusDiagnostic lines)
  report : state.2 = ⟨pass, (pass.multiplicity.chosen (outsideTags layout.regions tags)).length,
    tags.length - (pass.multiplicity.chosen (outsideTags layout.regions tags)).length⟩

variable {pass : Pass} {lines : LineTable} {diagnostics : List Diagnostic}

/-- One step of a pass over the tags. -/
theorem SettledUpTo.succ {tags : List Tag} {state : Progress}
    (h : SettledUpTo layout lines settled diagnostics pass tags state)
    (htag : tag ∈ layout.tags) (hspare : Spare (cuts layout.regions) tag.span)
    (haccepts : pass.accepts tag.directive = true) (hnew : tag ∉ tags) (hfresh : tag ∉ settled) :
    ∃ next, settleTag lines state tag.origin = .ok next ∧
      SettledUpTo layout lines settled diagnostics pass (tags ++ [tag]) next := by
  obtain ⟨draft, report⟩ := state
  obtain ⟨hsettles, hdiagnostics, rfl⟩ := h
  obtain ⟨interface, hinterface⟩ := exists_interface haccepts layout.text layout.regions
  have hchosen := pass.multiplicity.chosen_sublist (outsideTags layout.regions tags)
  have hunsettled : tag ∉ (pass.multiplicity.chosen (outsideTags layout.regions tags)).reverse ++ settled := by
    rw [List.mem_append, List.mem_reverse, not_or]
    exact ⟨fun hmem => hnew (List.mem_of_mem_filter (hchosen.subset hmem)), hfresh⟩
  have hlength : (pass.multiplicity.chosen (outsideTags layout.regions tags)).length ≤ tags.length :=
    hchosen.length_le.trans (List.length_filter_le _ _)
  rw [hsettles.settleTag_eq htag hspare hunsettled hinterface]
  by_cases hinside : inSomeRegion layout.regions tag.span = true
  · have hsame : outsideTags layout.regions (tags ++ [tag]) = outsideTags layout.regions tags := by
      simp [outsideTags, hinside]
    refine ⟨_, if_pos hinside, hsame ▸ hsettles, hsame ▸ hdiagnostics, ?_⟩
    rw [hsame, List.length_append]
    simp only [skipped, PassReport.mk.injEq, true_and, List.length_singleton]
    omega
  · rw [if_neg hinside]
    have hmore : outsideTags layout.regions (tags ++ [tag]) = outsideTags layout.regions tags ++ [tag] := by
      simp [outsideTags, hinside]
    by_cases htaken : pass.multiplicity = .first ∧
        0 < (pass.multiplicity.chosen (outsideTags layout.regions tags)).length
    · obtain ⟨hchosenSame, hsurplusMore⟩ := Multiplicity.append_of_taken tag htaken.1 htaken.2
      refine ⟨_, if_pos htaken, ?_, ?_, ?_⟩
      · rw [hmore, hchosenSame]
        exact hsettles.with_diagnostics _
      · rw [hmore, hsurplusMore, List.map_append, ← List.append_assoc, ← hdiagnostics]
        rfl
      · rw [hmore, hchosenSame, List.length_append]
        simp only [skipped, PassReport.mk.injEq, true_and, List.length_singleton]
        omega
    · rw [if_neg htaken]
      obtain ⟨hchosenMore, hsurplusSame⟩ := Multiplicity.append_of_free tag htaken
      obtain ⟨edit, next, happly, hnext, hkept⟩ :=
        hsettles.apply htag (Bool.eq_false_iff.mpr hinside) hunsettled hinterface
      refine ⟨next.settled _, by rw [happly]; rfl, ?_, ?_, ?_⟩
      · rw [hmore, hchosenMore, List.reverse_append]
        exact hnext
      · rw [hmore, hsurplusSame, ← hdiagnostics]
        exact hkept
      · rw [hmore, hchosenMore, List.length_append, List.length_append]
        simp only [Draft.settled, PassReport.mk.injEq, true_and, List.length_singleton]
        omega

/-- A pass comes to the tags that are not gone with the regions. -/
theorem Settles.filter_origins (h : draft.Settles layout settled)
    (hfresh : ∀ tag ∈ settled, pass.accepts tag.directive = false) :
    (draft.tags.filter fun tag => pass.accepts tag.directive).map Tag.origin =
      (pass.candidates false layout.regions layout.tags).map Tag.origin := by
  have hpending : ∀ tag ∈ layout.tags,
      (pass.accepts tag.directive && decide (Spare (layout.substitutions settled) tag.span)) =
        (pass.handles false tag.directive && decide (Spare (cuts layout.regions) tag.span)) := by
    intro tag htag
    by_cases haccepts : pass.accepts tag.directive = true
    · have hunsettled : tag ∉ settled := fun hmem => by
        rw [hfresh tag hmem] at haccepts
        cases haccepts
      have hiff : Spare (layout.substitutions settled) tag.span ↔ Spare (cuts layout.regions) tag.span :=
        ⟨fun hspare cut hcut => hspare cut (layout.cuts_subset settled cut hcut),
          fun hspare => h.spare htag hspare hunsettled⟩
      simp [Pass.handles, haccepts, hiff]
    · simp [Pass.handles, haccepts]
  rw [h.sweeps.tags, pendingTags, List.filter_map, List.map_map, List.filter_filter, Pass.candidates,
    ← List.filter_congr hpending]
  rfl

/-- The tags outside the regions that a pass comes to are all those that it handles. -/
theorem outsideTags_candidates (layout : Layout) (keepIncludes : Bool) (pass : Pass) :
    outsideTags layout.regions (pass.candidates keepIncludes layout.regions layout.tags) =
      pass.openTags keepIncludes layout.regions layout.tags := by
  rw [outsideTags, Pass.candidates, Pass.openTags, outsideTags, List.filter_filter, List.filter_filter]
  refine List.filter_congr fun tag htag => ?_
  by_cases hinside : inSomeRegion layout.regions tag.span = true
  · simp [hinside]
  · simp [hinside, layout.spare_cuts_of_outside htag (Bool.eq_false_iff.mpr hinside)]

/-- A pass over the tags settles what it handles outside the regions. -/
theorem Settles.settleTags (h : draft.Settles layout settled)
    (hfresh : ∀ tag ∈ settled, pass.accepts tag.directive = false) (lines : LineTable) :
    ∃ next : Draft, draft.settleTags lines pass =
        .ok (next, pass.outcome false layout.regions layout.tags) ∧
      next.Settles layout ((pass.settledTags false layout.regions layout.tags).reverse ++ settled) ∧
      next.diagnostics = draft.diagnostics ++
        (pass.surplusTags false layout.regions layout.tags).map (surplusDiagnostic lines) := by
  have hnodup : (pass.candidates false layout.regions layout.tags).Nodup := layout.tags_nodup.filter _
  have hstart : SettledUpTo layout lines settled draft.diagnostics pass
      ((pass.candidates false layout.regions layout.tags).take 0) (draft, .idle pass) := by
    have hnone : pass.multiplicity.chosen [] = [] ∧ pass.multiplicity.surplus [] = [] := by
      cases pass.multiplicity <;> exact ⟨rfl, rfl⟩
    refine ⟨?_, ?_, ?_⟩ <;> simp only [List.take_zero, outsideTags, List.filter_nil, hnone]
    · exact h
    · exact (List.append_nil _).symm
    · rfl
  obtain ⟨⟨next, report⟩, hnext, hsettled⟩ := exists_foldlM (settleTag lines)
    ((pass.candidates false layout.regions layout.tags).map Tag.origin)
    (P := fun index => SettledUpTo layout lines settled draft.diagnostics pass
      ((pass.candidates false layout.regions layout.tags).take index))
    (fun index hindex state hstate => by
      rw [List.length_map] at hindex
      obtain ⟨htag, hcandidate⟩ := List.mem_filter.mp (List.getElem_mem hindex)
      rw [Bool.and_eq_true, decide_eq_true_eq] at hcandidate
      have haccepts := Pass.accepts_of_handles hcandidate.1
      have hnew := fun hmem => ne_of_mem_take hnodup hindex hmem rfl
      have hunsettled := fun hmem => Bool.false_ne_true ((hfresh _ hmem).symm.trans haccepts)
      rw [List.getElem_map, List.take_succ_eq_append_getElem hindex]
      exact hstate.succ htag hcandidate.2 haccepts hnew hunsettled) hstart
  rw [List.length_map, List.take_length] at hsettled
  obtain ⟨hsettles, hdiagnostics, rfl⟩ := hsettled
  rw [outsideTags_candidates] at hsettles hdiagnostics hnext
  refine ⟨next, ?_, hsettles, hdiagnostics⟩
  rw [Draft.settleTags, h.filter_origins hfresh]
  exact hnext

/-- What a pass over the tags leaves, given that inclusions may be kept. -/
theorem Settles.run (h : draft.Settles layout settled) (hpass : pass.settlesTags = true)
    (hfresh : ∀ tag ∈ settled, pass.accepts tag.directive = false) (keepIncludes : Bool)
    (lines : LineTable) :
    ∃ next : Draft, draft.run keepIncludes lines pass =
        .ok (next, pass.outcome keepIncludes layout.regions layout.tags) ∧
      next.Settles layout ((pass.settledTags keepIncludes layout.regions layout.tags).reverse ++ settled) ∧
      next.diagnostics = draft.diagnostics ++
        (pass.surplusTags keepIncludes layout.regions layout.tags).map (surplusDiagnostic lines) := by
  by_cases hkept : keepIncludes = true ∧ pass = .includeImport
  · obtain ⟨rfl, rfl⟩ := hkept
    have hopen : Pass.openTags true .includeImport layout.regions layout.tags = [] := by
      simp [Pass.openTags, outsideTags, Pass.handles]
    have hsettled : Pass.settledTags true .includeImport layout.regions layout.tags = [] := hopen
    have hcandidates : Pass.candidates true .includeImport layout.regions layout.tags = [] := by
      simp [Pass.candidates, Pass.handles]
    have hsurplus : Pass.surplusTags true .includeImport layout.regions layout.tags = [] := rfl
    rw [Pass.outcome, hsettled, hsurplus, hcandidates]
    exact ⟨draft, rfl, h, (List.append_nil _).symm⟩
  · have hsame : pass.handles keepIncludes = pass.handles false := by
      funext directive
      cases keepIncludes <;> simp_all [Pass.handles]
    have hrun : draft.run keepIncludes lines pass = draft.settleTags lines pass := by
      cases pass with
      | unwrapRegions | removeExcluded | metatagPrompt => cases hpass
      | includeImport => simp_all [Draft.run]
      | moduleFragment | exportDeclaration | exportModule | exportImport | importTarget => rfl
    obtain ⟨next, hnext, hsettles, hdiagnostics⟩ := h.settleTags hfresh lines
    refine ⟨next, ?_, ?_, ?_⟩
    · rw [hrun, hnext]
      simp only [Pass.outcome, Pass.settledTags, Pass.openTags, Pass.candidates, hsame]
    · simpa only [Pass.settledTags, Pass.openTags, hsame] using hsettles
    · simpa only [Pass.surplusTags, Pass.openTags, hsame] using hdiagnostics

/-- What a pass settles, it accepts. -/
theorem accepts_of_mem_settledTags {keepIncludes : Bool} {regions : List Region} {tags : List Tag}
    (h : tag ∈ pass.settledTags keepIncludes regions tags) : pass.accepts tag.directive = true := by
  have hopen := (pass.multiplicity.chosen_sublist _).subset h
  exact Pass.accepts_of_handles (List.mem_filter.mp (List.mem_of_mem_filter hopen)).2

/-- Running different passes over the tags settles what each of them settles by itself. -/
theorem Settles.runAll {passes : List Pass} (h : draft.Settles layout settled)
    (hpasses : ∀ pass ∈ passes, pass.settlesTags = true) (hnodup : passes.Nodup)
    (hfresh : ∀ pass ∈ passes, ∀ tag ∈ settled, pass.accepts tag.directive = false) (keepIncludes : Bool)
    (lines : LineTable) :
    ∃ last : Draft, draft.runAll keepIncludes lines passes =
        .ok (last, passes.map fun pass => pass.outcome keepIncludes layout.regions layout.tags) ∧
      last.Settles layout ((passes.flatMap fun pass =>
        pass.settledTags keepIncludes layout.regions layout.tags).reverse ++ settled) ∧
      last.diagnostics = draft.diagnostics ++ (passes.flatMap fun pass =>
        pass.surplusTags keepIncludes layout.regions layout.tags).map (surplusDiagnostic lines) := by
  induction passes generalizing draft settled with
  | nil => exact ⟨draft, rfl, h, (List.append_nil _).symm⟩
  | cons pass passes ih =>
    obtain ⟨hpass, hpasses⟩ := List.forall_mem_cons.mp hpasses
    obtain ⟨hother, hnodup⟩ := List.nodup_cons.mp hnodup
    obtain ⟨hfreshPass, hfresh⟩ := List.forall_mem_cons.mp hfresh
    obtain ⟨next, hnext, hsettles, hdiagnostics⟩ := h.run hpass hfreshPass keepIncludes lines
    have hfresh' : ∀ pass' ∈ passes, ∀ tag ∈
        (pass.settledTags keepIncludes layout.regions layout.tags).reverse ++ settled,
        pass'.accepts tag.directive = false := by
      intro pass' hpass' tag htag
      rcases List.mem_append.mp htag with htag | htag
      · have haccepts := accepts_of_mem_settledTags (List.mem_reverse.mp htag)
        refine Bool.eq_false_iff.mpr fun haccepts' => hother ?_
        rw [Pass.eq_of_accepts haccepts haccepts']
        exact hpass'
      · exact hfresh pass' hpass' tag htag
    obtain ⟨last, hlast, hsettles', hdiagnostics'⟩ := ih hsettles hpasses hnodup hfresh'
    refine ⟨last, ?_, ?_, ?_⟩
    · simp only [Draft.runAll, hnext, hlast, bind, Except.bind, pure, Except.pure, List.map_cons]
    · rw [List.flatMap_cons, List.reverse_append, List.append_assoc]
      exact hsettles'
    · rw [hdiagnostics', hdiagnostics, List.flatMap_cons, List.map_append, List.append_assoc]

/-- Taking the regions away and running different passes over the tags never fails. -/
theorem exists_runAll {text : Text} {scan : RegionScan}
    (hscan : scanRegions text (scanTags text) = .ok scan) (passes : List Pass)
    (hpasses : ∀ pass ∈ passes, pass.settlesTags = true) (hnodup : passes.Nodup) (keepIncludes : Bool)
    (lines : LineTable) :
    ∃ last : Draft, (Draft.ofScan text (scanTags text) scan).runAll keepIncludes lines
        (.unwrapRegions :: .removeExcluded :: passes) = .ok (last,
          ⟨.unwrapRegions, (regionsOf (·.isProtected) scan.regions).length, 0⟩ ::
          ⟨.removeExcluded, (regionsOf (!·.isProtected) scan.regions).length, 0⟩ ::
          passes.map fun pass => pass.outcome keepIncludes scan.regions (scanTags text)) ∧
      last.Settles (.ofScan hscan)
        (passes.flatMap fun pass => pass.settledTags keepIncludes scan.regions (scanTags text)).reverse ∧
      last.diagnostics = (Draft.ofScan text (scanTags text) scan).diagnostics ++
        (passes.flatMap fun pass => pass.surplusTags keepIncludes scan.regions (scanTags text)).map
          (surplusDiagnostic lines) := by
  obtain ⟨unwrapped, next, hunwrapped, hnext, hsweeps, hdiagnostics⟩ :=
    (Sweeps.ofScan hscan).cutAll keepIncludes lines
  obtain ⟨last, hlast, hsettles, hdiagnostics'⟩ :=
    (Settles.nil hsweeps).runAll hpasses hnodup (by simp) keepIncludes lines
  rw [List.append_nil] at hsettles
  refine ⟨last, ?_, hsettles, by rw [hdiagnostics', hdiagnostics]; rfl⟩
  simp only [Draft.runAll, hunwrapped, hnext, hlast, bind, Except.bind, pure, Except.pure]
  rfl

end Draft
end TaggedHeader
