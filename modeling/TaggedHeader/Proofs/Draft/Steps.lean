import TaggedHeader.Proofs.Computation
import TaggedHeader.Proofs.Replacing
import TaggedHeader.Transform

/-!
# The steps of a conversion

What each step of a conversion does when it succeeds, and what all passes keep because each step does. A step
either leaves the text alone or makes one edit of a known range; taking the markers of a region away makes two.
-/

namespace TaggedHeader

open Text

/-- A range with bytes of its own meets the content of a region when the two share a byte. -/
theorem Region.interiorOverlaps_iff {region : Region} {range : Span} (hlt : range.start < range.stop) :
    region.interiorOverlaps range = true ↔ ¬ range.Apart region.interior := by
  simp only [Region.interiorOverlaps, Bool.and_eq_true, decide_eq_true_eq, Span.Apart]
  omega

namespace Draft

variable {draft next : Draft} {report report' : PassReport} {edit : Edit} {range : Span}
  {replacement : Text}

/-- An edit of a draft edits the text and moves the tags. -/
theorem apply_eq_ok_iff : draft.apply range replacement = .ok (edit, next) ↔
    ∃ source tags, draft.source.replace range replacement = .ok (edit, source) ∧
      rebaseTags edit draft.tags = .ok tags ∧ next = { draft with source, tags } := by
  simp only [apply, bind_eq_ok_iff, pure, Except.pure, Except.ok.injEq, Prod.mk.injEq]
  constructor
  · rintro ⟨⟨edit', source⟩, hreplace, tags, htags, rfl, rfl⟩
    exact ⟨source, tags, hreplace, htags, rfl⟩
  · rintro ⟨source, tags, hreplace, htags, rfl⟩
    exact ⟨(edit, source), hreplace, tags, htags, rfl, rfl⟩

/-- Taking markers away edits the opening marker and then the closing marker of a protected region. -/
theorem unwrapRegion_eq_ok {index : Nat}
    (h : unwrapRegion (draft, report) index = .ok (next, report')) :
    next = draft ∨ ∃ region edit opened edit', draft.source.regions[index]? = some region ∧
      draft.apply region.opening [] = .ok (edit, opened) ∧
      opened.apply (SourceText.rebaseRegion edit region).closing [] = .ok (edit', next) := by
  unfold unwrapRegion at h
  simp only at h
  split at h
  · cases h
    exact .inl rfl
  · rename_i region hregion
    split at h
    · simp only [bind_eq_ok_iff] at h
      obtain ⟨⟨edit, opened⟩, hopened, ⟨edit', closed⟩, hclosed, hsettled⟩ := h
      cases hsettled
      exact .inr ⟨region, edit, opened, edit', hregion, hopened, hclosed⟩
    · cases h
      exact .inl rfl

/-- Deleting edits the span of a removed region. -/
theorem removeRegion_eq_ok {index : Nat}
    (h : removeRegion (draft, report) index = .ok (next, report')) :
    next = draft ∨ ∃ region edit, draft.source.regions[index]? = some region ∧
      region.kind = .removed ∧ draft.apply region.span [] = .ok (edit, next) := by
  unfold removeRegion at h
  simp only at h
  split at h
  · cases h
    exact .inl rfl
  · rename_i region hregion
    split at h
    · rename_i hkind
      simp only [bind_eq_ok_iff] at h
      obtain ⟨⟨edit, deleted⟩, hdeleted, hsettled⟩ := h
      cases hsettled
      exact .inr ⟨region, edit, hregion, hkind, hdeleted⟩
    · cases h
      exact .inl rfl

/-- Settling a tag edits the span of the tag, which is not protected. -/
theorem settleTag_eq_ok {lines : LineTable} {origin : Nat}
    (h : settleTag lines (draft, report) origin = .ok (next, report')) :
    next.source = draft.source ∨ ∃ (tag : Tag) (text : Text) (edit : Edit),
      draft.source.isProtected tag.span = false ∧ draft.replacement? tag = .ok (some text) ∧
        draft.apply tag.span text = .ok (edit, next) := by
  unfold settleTag at h
  simp only at h
  split at h
  · cases h
    exact .inl rfl
  · rename_i tag htag
    rw [bind_eq_ok_iff] at h
    obtain ⟨content, -, h⟩ := h
    split at h
    · cases h
      exact .inl rfl
    · rename_i hprotected
      split at h
      · cases h
        exact .inl rfl
      · rw [bind_eq_ok_iff] at h
        obtain ⟨replacement, hreplacement, h⟩ := h
        split at h
        · cases h
          exact .inl rfl
        · rename_i text
          rw [bind_eq_ok_iff] at h
          obtain ⟨⟨edit, replaced⟩, hreplaced, hsettled⟩ := h
          cases hsettled
          exact .inr ⟨tag, text, edit, Bool.eq_false_iff.mpr hprotected, hreplacement, hreplaced⟩

/-- What stripping the prompt does: nothing when there is no prompt, nothing but counting it when it is protected,
and otherwise one edit of its range. -/
theorem stripPrompt_cases (h : draft.stripPrompt = .ok (next, report)) :
    (findPrompt? draft.source.current = none ∧ next = draft ∧ report = .idle .metatagPrompt) ∨
      ∃ range, findPrompt? draft.source.current = some range ∧
        (draft.source.isProtected range = true ∧ next = draft ∧ report = ⟨.metatagPrompt, 0, 1⟩ ∨
          draft.source.isProtected range = false ∧ report = ⟨.metatagPrompt, 1, 0⟩ ∧
            ∃ edit, draft.apply range ['\n'] = .ok (edit, next)) := by
  unfold stripPrompt at h
  simp only at h
  split at h
  · rename_i hnone
    cases h
    exact .inl ⟨hnone, rfl, rfl⟩
  · rename_i range hrange
    rw [bind_eq_ok_iff] at h
    obtain ⟨content, -, h⟩ := h
    split at h
    · rename_i hprotected
      cases h
      exact .inr ⟨range, hrange, .inl ⟨hprotected, rfl, rfl⟩⟩
    · rename_i hprotected
      rw [bind_eq_ok_iff] at h
      obtain ⟨⟨edit, stripped⟩, hstripped, hsettled⟩ := h
      cases hsettled
      exact .inr ⟨range, hrange, .inr ⟨Bool.eq_false_iff.mpr hprotected, rfl, edit, hstripped⟩⟩

/-- Stripping the prompt edits the range of the prompt, which is not protected. -/
theorem stripPrompt_eq_ok (h : draft.stripPrompt = .ok (next, report)) :
    next = draft ∨ ∃ range edit, draft.source.isProtected range = false ∧
      draft.apply range ['\n'] = .ok (edit, next) := by
  rcases stripPrompt_cases h with ⟨-, hnext, -⟩ | ⟨range, -, ⟨-, hnext, -⟩ | ⟨hprotected, -, edit, hstripped⟩⟩
  · exact .inl hnext
  · exact .inl hnext
  · exact .inr ⟨range, edit, hprotected, hstripped⟩

/-- A property of drafts that each step of a pass keeps. -/
structure KeptBySteps (P : Draft → Prop) : Prop where
  unwrapRegion : ∀ {draft next : Draft} {report report' : PassReport} {index : Nat}, P draft →
    unwrapRegion (draft, report) index = .ok (next, report') → P next
  removeRegion : ∀ {draft next : Draft} {report report' : PassReport} {index : Nat}, P draft →
    removeRegion (draft, report) index = .ok (next, report') → P next
  settleTag : ∀ {draft next : Draft} {lines : LineTable} {report report' : PassReport} {origin : Nat}, P draft →
    settleTag lines (draft, report) origin = .ok (next, report') → P next
  stripPrompt : ∀ {draft next : Draft} {report : PassReport}, P draft →
    draft.stripPrompt = .ok (next, report) → P next

namespace KeptBySteps

variable {P : Draft → Prop} {keepIncludes : Bool} {lines : LineTable}

/-- A pass keeps what its steps keep. -/
theorem run (h : KeptBySteps P) {pass : Pass} (hdraft : P draft)
    (hrun : draft.run keepIncludes lines pass = .ok (next, report)) : P next := by
  have hregions : ∀ {step : Progress → Nat → Except RangeFault Progress},
      (∀ state index next, P state.1 → step state index = .ok next → P next.1) →
      draft.forRegions step pass = .ok (next, report) → P next :=
    fun hstep hloop => foldlM_preserves (P := fun state => P state.1) hstep hloop hdraft
  have htags : draft.settleTags lines pass = .ok (next, report) → P next :=
    fun hloop => foldlM_preserves (P := fun state => P state.1) (fun _ _ _ => h.settleTag) hloop hdraft
  cases pass with
  | unwrapRegions => exact hregions (fun _ _ _ => h.unwrapRegion) hrun
  | removeExcluded => exact hregions (fun _ _ _ => h.removeRegion) hrun
  | includeImport =>
    cases keepIncludes with
    | true =>
      cases hrun
      exact hdraft
    | false => exact htags hrun
  | metatagPrompt => exact h.stripPrompt hdraft hrun
  | _ => exact htags hrun

/-- Running passes keeps what the steps keep. -/
theorem runAll (h : KeptBySteps P) {passes : List Pass} {reports : List PassReport} {last : Draft}
    (hdraft : P draft) (hrun : draft.runAll keepIncludes lines passes = .ok (last, reports)) : P last := by
  induction passes generalizing draft reports with
  | nil =>
    cases hrun
    exact hdraft
  | cons pass passes ih =>
    simp only [Draft.runAll, bind_eq_ok_iff] at hrun
    obtain ⟨⟨next, report⟩, hnext, ⟨last', reports'⟩, hrest, hresult⟩ := hrun
    cases hresult
    exact ih (h.run hdraft hnext) hrest

end KeptBySteps
end Draft

/-- A conversion succeeds when the regions can be found and all passes run. -/
theorem finalDraft_eq_ok_iff {options : TransformOptions} {text : Text} {draft : Draft}
    {reports : List PassReport} : finalDraft options text = .ok (draft, reports) ↔
    ∃ scan, scanRegions text (scanTags text) = .ok scan ∧
      (Draft.ofScan text (scanTags text) scan).runAll options.disableIncludeImport (.ofText text)
        Pass.order = .ok (draft, reports) := by
  have hrange : ∀ result : Except RangeFault (Draft × List PassReport),
      TransformError.ofRange result = .ok (draft, reports) ↔ result = .ok (draft, reports) := fun result => by
    cases result <;> simp [TransformError.ofRange, Except.mapError]
  simp only [finalDraft, bind_eq_ok_iff, hrange]

end TaggedHeader
