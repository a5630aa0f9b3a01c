import TaggedHeader.Proofs.Draft.Settling
import TaggedHeader.Proofs.Draft.Tracking
import TaggedHeader.Proofs.Prompt
import TaggedHeader.Proofs.Text.Lines

/-!
# A conversion never goes out of bounds

Cutting a text fails at a position that lies past its end or inside a character, and at an inverted range.
None of this ever happens in a conversion: the passes before the prompt edit ranges where a sweep has put
them, and the prompt is a range of the text as it is. The only error left is a region inside another one.
-/

namespace TaggedHeader

open Text Substitution

/-- A tag and what stands between its delimiters can be cut out of a text. -/
def Tag.CutsFrom (text : Text) (tag : Tag) : Prop :=
  ∃ opener content closer, slice tag.span text = .ok (opener ++ content ++ closer) ∧
    slice ⟨tag.span.start + size opener, tag.span.stop - size closer⟩ text = .ok content ∧
    (tag.directive = .literal ∧ opener = literalOpen ∧ closer = literalEnd ++ commentClose ∧
        tag.payload = trim content ∨
      tag.directive = .parse tag.payload ∧ opener = bracketOpen ∧ closer = bracketEnd ++ commentClose ∧
        tag.payload = trim content ∨
      ∃ header, tag.directive = .includeHeader header ∧ closer = ['>'] ∧ content = header.text)

/-- The part between two others is selected by the range without them. -/
theorem Text.Selects.inner {text opener content closer : Text} {span : Span}
    (h : Selects text span (opener ++ content ++ closer)) :
    Selects text ⟨span.start + size opener, span.stop - size closer⟩ content := by
  obtain ⟨before, after, rfl, hstart, hstop⟩ := h
  refine ⟨before ++ opener, closer ++ after, by simp, ?_, ?_⟩
  all_goals
    simp only [size_append] at hstop ⊢
    omega

theorem Tag.StandsIn.cutsFrom {text : Text} {tag : Tag} (h : tag.StandsIn text) : tag.CutsFrom text := by
  obtain ⟨body, hbody, hspelling⟩ := h.body
  generalize hdirective : tag.directive = directive at hspelling
  generalize hpayload : tag.payload = payload at hspelling
  cases hspelling with
  | literal content =>
    rw [List.append_assoc] at hbody
    exact ⟨_, content, _, hbody.slice_eq, hbody.inner.slice_eq, .inl ⟨hdirective, rfl, rfl, hpayload⟩⟩
  | bracket content =>
    rw [List.append_assoc] at hbody
    exact ⟨_, content, _, hbody.slice_eq, hbody.inner.slice_eq,
      .inr (.inl ⟨by rw [hpayload, hdirective], rfl, rfl, hpayload⟩)⟩
  | inclusion gap header =>
    have hsplit : Lexeme.includeWord ++ gap ++ '<' :: header.text ++ ['>'] =
        (Lexeme.includeWord ++ gap ++ ['<']) ++ header.text ++ ['>'] := by simp
    rw [hsplit] at hbody
    exact ⟨_, header.text, _, hbody.slice_eq, hbody.inner.slice_eq, .inr (.inr ⟨header, hdirective, rfl, rfl⟩)⟩

/-- What the lexer takes for an inclusion can be cut out, and so can what stands between its brackets. -/
theorem slice_inclusion {before after name : Text} (h : (Lexeme.read after).lexeme = some (.inclusion name)) :
    slice ⟨size before, size before + size (Lexeme.read after).used⟩ (before ++ after) =
        .ok (Lexeme.read after).used ∧
      ∃ opener, (Lexeme.read after).used = opener ++ '<' :: name ++ ['>'] ∧ '<' ∉ opener ∧
        slice ⟨size opener + 1, size (Lexeme.read after).used - 1⟩ (Lexeme.read after).used = .ok name := by
  have hwhole : Selects (before ++ after)
      ⟨size before, size before + size (Lexeme.read after).used⟩ (Lexeme.read after).used :=
    ⟨before, (Lexeme.read after).rest, by rw [List.append_assoc, Lexeme.used_append_rest], rfl, rfl⟩
  obtain ⟨gap, hgap, hused⟩ := Lexeme.read_covers h
  have hopener : '<' ∉ Lexeme.includeWord ++ gap := by
    rw [List.mem_append, not_or]
    exact ⟨by decide, fun hmem => absurd (hgap _ hmem) (by decide)⟩
  refine ⟨hwhole.slice_eq, Lexeme.includeWord ++ gap, hused, hopener, ?_⟩
  have hself : Selects (Lexeme.read after).used ⟨0, size (Lexeme.read after).used⟩
      (Lexeme.includeWord ++ gap ++ ['<'] ++ name ++ ['>']) := by
    refine ⟨[], [], by rw [hused]; simp, rfl, ?_⟩
    rw [hused]
    simp [size_append, size]
  have hinner := hself.inner.slice_eq
  rw [size_append _ ['<'], Nat.zero_add] at hinner
  exact hinner

/-- Finding the regions fails only where one lies inside another. -/
theorem eq_nestedRegion_of_scanRegions {text : Text} {error : TransformError}
    (h : scanRegions text (scanTags text) = .error error) :
    ∃ kind outer inner, error = .nestedRegion kind outer inner := by
  obtain ⟨pairing, hpairing, -⟩ := exists_pairing text
  rw [scanRegions_eq hpairing] at h
  cases hnesting : pairing.nesting? with
  | none =>
    rw [hnesting] at h
    cases h
  | some found =>
    rw [hnesting] at h
    cases h
    exact ⟨_, _, _, rfl⟩

namespace Draft

variable {draft mid last : Draft}

/-- The pending tags of a sweep have bytes. -/
theorem Sweeps.start_lt_stop_of_mem_tags {layout : Layout} {subs : List Substitution}
    (h : draft.Sweeps layout subs) : ∀ tag ∈ draft.tags, tag.span.start < tag.span.stop := by
  intro tag htag
  rw [h.tags, pendingTags] at htag
  obtain ⟨given, hpending, rfl⟩ := List.mem_map.mp htag
  obtain ⟨hgiven, hspare⟩ := List.mem_filter.mp hpending
  have hstands := layout.tagsIn.standsIn given hgiven
  exact place_lt hstands.isBoundary_start hstands.isBoundary_stop hstands.start_lt_stop
    (fun sub hsub => (h.fitsIn sub hsub).start_lt_stop) (of_decide_eq_true hspare)

/-- Stripping the prompt never fails while the pending tags have bytes. -/
theorem exists_stripPrompt (h : ∀ tag ∈ draft.tags, tag.span.start < tag.span.stop) :
    ∃ next, draft.stripPrompt = .ok next := by
  cases hprompt : findPrompt? draft.source.current with
  | none => exact ⟨(draft, .idle .metatagPrompt), by simp only [stripPrompt, hprompt]⟩
  | some range =>
    obtain ⟨found, hfound⟩ := exists_selects_of_findPrompt? hprompt
    obtain ⟨edit, source, hreplace⟩ := SourceText.exists_replace hfound ['\n']
    obtain ⟨stripped, happly⟩ : ∃ stripped, draft.apply range ['\n'] = .ok (edit, stripped) :=
      ⟨_, apply_eq_ok_iff.mpr ⟨source, _, hreplace, rebaseTags_eq edit h, rfl⟩⟩
    cases hprotected : draft.source.isProtected range with
    | true =>
      exact ⟨draft.skipped (.idle .metatagPrompt), by
        simp [stripPrompt, hprompt, hfound.slice_eq, hprotected, bind, Except.bind, pure, Except.pure]⟩
    | false =>
      exact ⟨stripped.settled (.idle .metatagPrompt), by
        simp [stripPrompt, hprompt, hfound.slice_eq, hprotected, happly, bind, Except.bind, pure, Except.pure]⟩

/-- The last pass strips the prompt. -/
theorem runAll_metatagPrompt {keepIncludes : Bool} {lines : LineTable} {report : PassReport}
    (h : mid.stripPrompt = .ok (last, report)) :
    mid.runAll keepIncludes lines [.metatagPrompt] = .ok (last, [report]) := by
  simp [runAll, run, h, bind, Except.bind, pure, Except.pure]

/-- Passes run one list after another. -/
theorem runAll_append {keepIncludes : Bool} {lines : LineTable} {passes passes' : List Pass}
    {reports reports' : List PassReport} (h : draft.runAll keepIncludes lines passes = .ok (mid, reports))
    (h' : mid.runAll keepIncludes lines passes' = .ok (last, reports')) :
    draft.runAll keepIncludes lines (passes ++ passes') = .ok (last, reports ++ reports') := by
  induction passes generalizing draft reports with
  | nil =>
    cases h
    exact h'
  | cons pass passes ih =>
    simp only [runAll, bind_eq_ok_iff] at h
    obtain ⟨⟨next, report⟩, hnext, ⟨last', reports''⟩, hrest, hresult⟩ := h
    cases hresult
    simp [runAll, hnext, ih hrest, bind, Except.bind, pure, Except.pure]

end Draft

/-- When the regions can be found, the passes before the prompt settle the tags and the last one ends the
conversion. -/
theorem exists_finalDraft {text : Text} {scan : RegionScan} (options : TransformOptions)
    (h : scanRegions text (scanTags text) = .ok scan) : ∃ (mid last : Draft) (report : PassReport),
      mid.Settles (.ofScan h) (tagPasses.flatMap fun pass =>
        pass.settledTags options.disableIncludeImport scan.regions (scanTags text)).reverse ∧
      mid.diagnostics = (Draft.ofScan text (scanTags text) scan).diagnostics ++
        (tagPasses.flatMap fun pass =>
          pass.surplusTags options.disableIncludeImport scan.regions (scanTags text)).map
            (surplusDiagnostic (.ofText text)) ∧
      mid.stripPrompt = .ok (last, report) ∧
      finalDraft options text = .ok (last,
        ⟨.unwrapRegions, (regionsOf (·.isProtected) scan.regions).length, 0⟩ ::
        ⟨.removeExcluded, (regionsOf (!·.isProtected) scan.regions).length, 0⟩ ::
        tagPasses.map (fun pass => pass.outcome options.disableIncludeImport scan.regions (scanTags text)) ++
        [report]) := by
  obtain ⟨mid, hmid, hsettles, hdiagnostics⟩ := Draft.exists_runAll h tagPasses (by decide) (by decide)
    options.disableIncludeImport (.ofText text)
  obtain ⟨⟨last, report⟩, hlast⟩ := Draft.exists_stripPrompt hsettles.sweeps.start_lt_stop_of_mem_tags
  exact ⟨mid, last, report, hsettles, hdiagnostics, hlast,
    finalDraft_eq_ok_iff.mpr ⟨scan, h, Draft.runAll_append hmid (Draft.runAll_metatagPrompt hlast)⟩⟩

/-- A header whose regions can be found is converted. -/
theorem exists_transform {text : Text} {scan : RegionScan} (options : TransformOptions)
    (h : scanRegions text (scanTags text) = .ok scan) : ∃ result, transform options text = .ok result := by
  obtain ⟨_, last, report, -, -, -, hfinal⟩ := exists_finalDraft options h
  simp only [transform, hfinal, bind, Except.bind, pure, Except.pure]
  exact ⟨_, rfl⟩

/-- A conversion never goes out of bounds.

Every header has an interface or a region inside another one; no range that a conversion records selects
nothing. The tags of a header can be cut out along with their payloads, and so can every inclusion that the
lexer reads. No position counts backwards: not from the end of a comment to its closing brackets, not in the
line table, not where a marker takes the newline before it along, and not where an edit moves what lies
behind it. -/
theorem transform_stays_in_bounds (options : TransformOptions) (text : Text) :
    ((∃ result, transform options text = .ok result) ∨
      ∃ kind outer inner, transform options text = .error (.nestedRegion kind outer inner)) ∧
    (∀ tag ∈ scanTags text, tag.CutsFrom text) ∧
    (∀ before after name, text = before ++ after →
      (Lexeme.read after).lexeme = some (.inclusion name) →
        slice ⟨size before, size before + size (Lexeme.read after).used⟩ text =
            .ok (Lexeme.read after).used ∧
          ∃ opener, (Lexeme.read after).used = opener ++ '<' :: name ++ ['>'] ∧ '<' ∉ opener ∧
            slice ⟨size opener + 1, size (Lexeme.read after).used - 1⟩ (Lexeme.read after).used = .ok name) ∧
    (∀ before comment, ∀ delimiters ∈ [(Tag.bracketOpen, Tag.bracketEnd), (Tag.literalOpen, Tag.literalEnd)],
      size delimiters.2 ≤ size (before ++ delimiters.1 ++ comment)) ∧
    (∀ offset, (LineTable.ofText text).lineIndex offset < (LineTable.ofText text).starts.size ∧
      (LineTable.ofText text).starts.getD ((LineTable.ofText text).lineIndex offset) 0 ≤ offset) ∧
    (∀ offset, followsNewline text offset = .ok true → 0 < offset) ∧
    ∀ edit : Edit, edit.start ≤ edit.stop ∧
      ∀ position, edit.stop ≤ position → edit.stop - edit.start ≤ position := by
  refine ⟨?_, fun tag htag => (standsIn_of_mem_scanTags htag).cutsFrom, ?_,
    fun before comment delimiters hdelimiters => ?_, LineTable.lineIndex_ofText text,
    fun offset hnewline => ?_, fun edit => ⟨edit.ordered, fun position hle => ?_⟩⟩
  · cases hscan : scanRegions text (scanTags text) with
    | ok scan => exact .inl (exists_transform options hscan)
    | error error =>
      obtain ⟨kind, outer, inner, rfl⟩ := eq_nestedRegion_of_scanRegions hscan
      refine .inr ⟨kind, outer, inner, ?_⟩
      simp only [transform, finalDraft, hscan, bind, Except.bind]
  · rintro before after name rfl hlexeme
    exact slice_inclusion hlexeme
  · have hopener : size delimiters.2 ≤ size delimiters.1 := by
      revert delimiters
      decide
    rw [size_append, size_append]
    omega
  · refine Nat.pos_of_ne_zero fun hzero => ?_
    subst hzero
    simp [followsNewline, charBefore, cutAt, bind, Except.bind, pure, Except.pure] at hnewline
  · exact (Nat.sub_le _ _).trans hle

end TaggedHeader
