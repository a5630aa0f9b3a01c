import TaggedHeader.Proofs.Protection
import TaggedHeader.Proofs.Safety

/-!
# The prompt that goes

A header may hold several prompts, and some of them may be protected. The last pass looks at the first one alone: it
replaces this prompt by a newline, or leaves all of them when the first is protected. So the earliest prompt without a
protected byte goes unless a protected one stands before it, or unless a region of which nothing is left stands in the
middle of the first one, which the pass takes for protected content as well.
-/

namespace TaggedHeader

open Text

variable {text before found rest : Text} {pattern : Pattern} {start : Nat} {range : Span} {source : SourceText}

/-- The places where a pattern fits, each the first one behind the end of the one before. -/
def Pattern.placesFrom (pattern : Pattern) (start : Nat) (text : Text) : List Span :=
  match pattern.find? text with
  | none => []
  | some (before, found, rest) =>
    ⟨start + size before, start + size before + size found⟩ ::
      if rest.length < text.length then pattern.placesFrom (start + size before + size found) rest else []
termination_by text.length

/-- The prompts of a text, from left to right. -/
def prompts (text : Text) : List Span := promptPattern.placesFrom 0 text

namespace Pattern

theorem placesFrom_eq_nil (h : pattern.find? text = none) : pattern.placesFrom start text = [] := by
  rw [placesFrom, h]

/-- Behind a place where a pattern fits, the search goes on. -/
theorem placesFrom_eq_cons (hpattern : 0 < pattern.wordLength) (h : pattern.find? text = some (before, found, rest)) :
    pattern.placesFrom start text = ⟨start + size before, start + size before + size found⟩ ::
      pattern.placesFrom (start + size before + size found) rest := by
  have hlength : rest.length < text.length := by
    have hpos := List.length_pos_iff.mpr (found_ne_nil h hpattern)
    rw [eq_append_of_find? h, List.length_append, List.length_append]
    omega
  rw [placesFrom, h]
  simp only [hlength, if_true]

end Pattern

theorem wordLength_promptPattern : 0 < promptPattern.wordLength := by
  have hslashes : 0 < "//".toList.length := by decide
  rw [promptPattern, Pattern.wordLength, Pattern.wordLength]
  exact Nat.add_pos_left hslashes _

/-- The prompt that is looked for is the first one. -/
theorem findPrompt?_eq_head? (text : Text) : findPrompt? text = (prompts text).head? := by
  rw [findPrompt?, prompts]
  cases hfind : promptPattern.find? text with
  | none => rw [Pattern.placesFrom_eq_nil hfind]; rfl
  | some place =>
    obtain ⟨before, found, rest⟩ := place
    rw [Pattern.placesFrom_eq_cons wordLength_promptPattern hfind]
    simp

/-- A byte of a range. -/
def Span.Holds (span : Span) (byte : Nat) : Prop := span.start ≤ byte ∧ byte < span.stop

namespace SourceText

/-- No byte of a range is protected content. -/
def IsFree (source : SourceText) (range : Span) : Prop :=
  ∀ region ∈ source.regions, region.kind.isProtected = true →
    ∀ byte, range.Holds byte → ¬ region.interior.Holds byte

/-- A protected region of which nothing is left stands in the middle of a range. -/
def IsSplit (source : SourceText) (range : Span) : Prop :=
  ∃ region ∈ source.regions, region.kind.isProtected = true ∧ region.interior.start = region.interior.stop ∧
    range.start < region.interior.start ∧ region.interior.start < range.stop

/-- A range counts as protected when a byte of it is protected content, or when it is split. -/
theorem isProtected_iff (hupright : ∀ region ∈ source.regions, region.IsUpright) (hlt : range.start < range.stop) :
    source.isProtected range = true ↔ ¬ source.IsFree range ∨ source.IsSplit range := by
  have hoverlaps : ∀ region : Region, region.interiorOverlaps range = true ↔
      range.start < region.interior.stop ∧ region.interior.start < range.stop := fun region => by
    rw [Region.interiorOverlaps_iff hlt, Span.Apart]
    omega
  simp only [isProtected, List.any_eq_true, Bool.and_eq_true, hoverlaps]
  constructor
  · rintro ⟨region, hregion, hprotected, hstart, hstop⟩
    rcases Nat.eq_or_lt_of_le (hupright region hregion).interior with hempty | hless
    · exact .inr ⟨region, hregion, hprotected, hempty, by omega, hstop⟩
    · refine .inl fun hfree => hfree region hregion hprotected (max range.start region.interior.start) ?_ ?_
      · exact ⟨Nat.le_max_left _ _, by omega⟩
      · exact ⟨Nat.le_max_right _ _, by omega⟩
  · rintro (hheld | ⟨region, hregion, hprotected, hempty, hstart, hstop⟩)
    · simp only [IsFree, not_forall, not_not] at hheld
      obtain ⟨region, hregion, hprotected, byte, ⟨hstart, hstop⟩, hinside⟩ := hheld
      exact ⟨region, hregion, hprotected, hstart.trans_lt hinside.2, hinside.1.trans_lt hstop⟩
    · exact ⟨region, hregion, hprotected, hempty ▸ hstart, hstop⟩

end SourceText

/-- A range of a text gives way to a newline. -/
def GivesWay (text : Text) (range : Span) (result : Text) : Prop :=
  ∃ before part after, text = before ++ part ++ after ∧ range = ⟨size before, size before + size part⟩ ∧
    result = before ++ '\n' :: after

/-- The first prompt decides: it gives way to a newline, or it counts as protected and nothing happens. -/
inductive StripsFirst (given : Draft) : (result : Draft) → (report : PassReport) → Prop
  | none (hnone : prompts given.source.current = []) : StripsFirst given given (.idle .metatagPrompt)
  | kept {range : Span} {others : List Span} (hfirst : prompts given.source.current = range :: others)
    (hheld : ¬ given.source.IsFree range ∨ given.source.IsSplit range) :
    StripsFirst given given ⟨.metatagPrompt, 0, 1⟩
  | stripped {range : Span} {others : List Span} {result : Draft}
    (hfirst : prompts given.source.current = range :: others) (hfree : given.source.IsFree range)
    (hwhole : ¬ given.source.IsSplit range)
    (hresult : GivesWay given.source.current range result.source.current) :
    StripsFirst given result ⟨.metatagPrompt, 1, 0⟩

/-- The earliest prompt without a protected byte gives way to a newline, and nothing happens if there is none. -/
inductive StripsEarliestFree (given : SourceText) : (result : Text) → (settled : Nat) → Prop
  | stripped {passed others : List Span} {range : Span} {result : Text}
    (hprompts : prompts given.current = passed ++ range :: others) (hpassed : ∀ other ∈ passed, ¬ given.IsFree other)
    (hfree : given.IsFree range) (hresult : GivesWay given.current range result) : StripsEarliestFree given result 1
  | kept (hprompts : ∀ range ∈ prompts given.current, ¬ given.IsFree range) :
    StripsEarliestFree given given.current 0

/-- Nothing happens only where no prompt is free. -/
theorem StripsEarliestFree.of_zero {given : SourceText} {result : Text} {settled : Nat}
    (h : StripsEarliestFree given result settled) (hsettled : settled = 0) :
    ∀ range ∈ prompts given.current, ¬ given.IsFree range := by
  cases h with
  | stripped => cases hsettled
  | kept hprompts => exact hprompts

namespace Draft

variable {draft next : Draft} {report : PassReport}

/-- A prompt has bytes. -/
theorem start_lt_stop_of_findPrompt? (h : findPrompt? text = some range) : range.start < range.stop := by
  obtain ⟨⟨before, found, rest⟩, hfind, rfl⟩ := Option.map_eq_some_iff.mp h
  have hpos := size_pos (Pattern.found_ne_nil hfind wordLength_promptPattern)
  dsimp only
  omega

/-- Stripping the prompt is decided by the first one. -/
theorem stripsFirst_of_stripPrompt (hupright : ∀ region ∈ draft.source.regions, region.IsUpright)
    (h : draft.stripPrompt = .ok (next, report)) : StripsFirst draft next report := by
  rcases stripPrompt_cases h with ⟨hnone, rfl, rfl⟩ | ⟨range, hrange, hcases⟩
  · refine .none (List.head?_eq_none_iff.mp ?_)
    rw [← findPrompt?_eq_head?, hnone]
  · have hiff := SourceText.isProtected_iff hupright (start_lt_stop_of_findPrompt? hrange)
    obtain ⟨others, hfirst⟩ : ∃ others, prompts draft.source.current = range :: others :=
      List.head?_eq_some_iff.mp (by rw [← findPrompt?_eq_head?, hrange])
    rcases hcases with ⟨hprotected, rfl, rfl⟩ | ⟨hprotected, rfl, edit, happly⟩
    · exact .kept hfirst (hiff.mp hprotected)
    · obtain ⟨hfree, hwhole⟩ := not_or.mp (mt hiff.mpr (Bool.eq_false_iff.mp hprotected))
      obtain ⟨source, tags, hreplace, -, rfl⟩ := apply_eq_ok_iff.mp happly
      obtain ⟨before, part, after, hcurrent, hstart, hstop, -, -, -, rfl⟩ := SourceText.replace_eq_ok_iff.mp hreplace
      refine .stripped hfirst (not_not.mp hfree) hwhole ⟨before, part, after, hcurrent, ?_, ?_⟩
      · rw [hstop, hstart]
      · exact List.append_assoc before ['\n'] after

/-- Stripping the first prompt strips the earliest free one unless the first counts as protected and another one is
free. -/
theorem stripsEarliestFree_iff (h : StripsFirst draft next report) :
    StripsEarliestFree draft.source next.source.current report.settled ↔
      ∀ range others, prompts draft.source.current = range :: others →
        ¬ draft.source.IsFree range ∨ draft.source.IsSplit range →
        ∀ other ∈ range :: others, ¬ draft.source.IsFree other := by
  cases h with
  | none hnone =>
    refine iff_of_true (.kept fun range hrange => ?_) fun range others hsome => ?_
    · rw [hnone] at hrange
      cases hrange
    · rw [hnone] at hsome
      cases hsome
  | kept hfirst hheld =>
    constructor
    · rintro hkept range others hsame -
      rw [← hsame]
      exact hkept.of_zero rfl
    · intro hnone
      exact .kept (hfirst ▸ hnone _ _ hfirst hheld)
  | stripped hfirst hfree hwhole hresult =>
    have hprompts : prompts draft.source.current = [] ++ _ :: _ := hfirst
    refine iff_of_true (.stripped hprompts (by simp) hfree hresult) fun range others hsame hheld => ?_
    rw [hfirst] at hsame
    cases hsame
    rcases hheld with hnot | hsplit
    · exact absurd hfree hnot
    · exact absurd hsplit hwhole

end Draft

/-- The first prompt decides which prompt goes.

The passes before the last one leave a draft, and in this draft the last pass looks at the first prompt alone. It
does what stripping the earliest prompt without a protected byte does, unless the first prompt counts as protected
while a prompt has no protected byte. -/
theorem first_prompt_decides (options : TransformOptions) (text : Text) {scan : RegionScan}
    (h : scanRegions text (scanTags text) = .ok scan) : ∃ (mid last : Draft) (reports : List PassReport)
      (report : PassReport),
      (Draft.ofScan text (scanTags text) scan).runAll options.disableIncludeImport (.ofText text)
        Pass.order.dropLast = .ok (mid, reports) ∧
      mid.run options.disableIncludeImport (.ofText text) .metatagPrompt = .ok (last, report) ∧
      finalDraft options text = .ok (last, reports ++ [report]) ∧
      StripsFirst mid last report ∧
      (StripsEarliestFree mid.source last.source.current report.settled ↔
        ∀ range others, prompts mid.source.current = range :: others →
          ¬ mid.source.IsFree range ∨ mid.source.IsSplit range →
          ∀ other ∈ range :: others, ¬ mid.source.IsFree other) := by
  obtain ⟨mid, hmid, hsettles, -⟩ := Draft.exists_runAll h tagPasses (by decide) (by decide)
    options.disableIncludeImport (.ofText text)
  obtain ⟨⟨last, report⟩, hlast⟩ := Draft.exists_stripPrompt hsettles.sweeps.start_lt_stop_of_mem_tags
  have hguards := Draft.guards_kept.runAll (.ofLayout (.ofScan h)) hmid
  have hstrips := Draft.stripsFirst_of_stripPrompt hguards.upright hlast
  exact ⟨mid, last, _, report, hmid, hlast,
    finalDraft_eq_ok_iff.mpr ⟨scan, h, Draft.runAll_append hmid (Draft.runAll_metatagPrompt hlast)⟩,
    hstrips, Draft.stripsEarliestFree_iff hstrips⟩

/-- The prompt of a tool named with one letter. -/
def shortPrompt : Text :=
  "// This file uses metatags to ".toList ++ "convert headers to module-interfaces ".toList ++ "using x.\n".toList ++
    "// Any block comment formatted ".toList ++ "as: /*[]*/ is a metatag and ".toList ++
    "other code may depend on it.\n".toList ++ "// Proceed with caution when ".toList ++
    "modifying such comments.".toList

/-- A header with a prompt in a preserved region and another one behind it. -/
def twicePromptedHeader : Text :=
  "/*[ignore begin]*/".toList ++ shortPrompt ++ "/*[ignore end]*/\nint a;\n".toList ++ shortPrompt ++
    "\nint b;\n".toList

/-- In this header the first prompt lies in the region and the second one does not, and the last pass settles none. -/
theorem run_twicePromptedHeader : ∃ (scan : RegionScan) (mid last : Draft) (reports : List PassReport)
    (report : PassReport), scanRegions twicePromptedHeader (scanTags twicePromptedHeader) = .ok scan ∧
    (Draft.ofScan twicePromptedHeader (scanTags twicePromptedHeader) scan).runAll false (.ofText twicePromptedHeader)
      Pass.order.dropLast = .ok (mid, reports) ∧
    mid.run false (.ofText twicePromptedHeader) .metatagPrompt = .ok (last, report) ∧
    report.settled = 0 ∧ mid.source.regions.map Region.interior = [⟨0, 217⟩] ∧
    (⟨224, 443⟩ : Span) ∈ prompts mid.source.current := by
  have hrun : ((scanRegions twicePromptedHeader (scanTags twicePromptedHeader)).toOption.bind fun scan =>
      ((Draft.ofScan twicePromptedHeader (scanTags twicePromptedHeader) scan).runAll false
        (.ofText twicePromptedHeader) Pass.order.dropLast).toOption.bind fun run =>
      (run.1.run false (.ofText twicePromptedHeader) .metatagPrompt).toOption.bind fun strip =>
      (promptPattern.find? run.1.source.current).bind fun first => (promptPattern.find? first.2.2).map fun second =>
        (strip.2.settled, run.1.source.regions.map Region.interior, size first.1 + size first.2.1, size second.1,
          size second.2.1)) = some (0, [⟨0, 217⟩], 218, 6, 219) := by decide +kernel
  obtain ⟨scan, hscan, hrun⟩ := Option.bind_eq_some_iff.mp hrun
  obtain ⟨⟨mid, reports⟩, hmid, hrun⟩ := Option.bind_eq_some_iff.mp hrun
  obtain ⟨⟨last, report⟩, hlast, hrun⟩ := Option.bind_eq_some_iff.mp hrun
  obtain ⟨⟨before, found, rest⟩, hfirst, hrun⟩ := Option.bind_eq_some_iff.mp hrun
  obtain ⟨⟨before', found', rest'⟩, hsecond, hresult⟩ := Option.map_eq_some_iff.mp hrun
  simp only [Prod.mk.injEq] at hresult
  obtain ⟨hsettled, hinteriors, hpassed, hgap, hlength⟩ := hresult
  refine ⟨scan, mid, last, reports, report, eq_ok_of_toOption hscan, eq_ok_of_toOption hmid, eq_ok_of_toOption hlast,
    hsettled, hinteriors, ?_⟩
  rw [prompts, Pattern.placesFrom_eq_cons wordLength_promptPattern hfirst,
    Pattern.placesFrom_eq_cons wordLength_promptPattern hsecond]
  simp [hpassed, hgap, hlength]

theorem first_prompt_decides_twicePromptedHeader : ∃ scan mid last report,
    scanRegions twicePromptedHeader (scanTags twicePromptedHeader) = .ok scan ∧ StripsFirst mid last report ∧
      ∃ reports, finalDraft {} twicePromptedHeader = .ok (last, reports ++ [report]) := by
  obtain ⟨scan, -, -, -, -, hscan, -⟩ := run_twicePromptedHeader
  obtain ⟨mid, last, reports, report, -, -, hfinal, hstrips, -⟩ :=
    first_prompt_decides {} twicePromptedHeader hscan
  exact ⟨scan, mid, last, report, hscan, hstrips, reports, hfinal⟩

/-- Behind a protected prompt a free one stays. -/
theorem free_prompt_stays : ¬ ∀ (options : TransformOptions) (text : Text) (scan : RegionScan)
    (mid last : Draft) (reports : List PassReport) (report : PassReport),
    scanRegions text (scanTags text) = .ok scan →
    (Draft.ofScan text (scanTags text) scan).runAll options.disableIncludeImport (.ofText text)
      Pass.order.dropLast = .ok (mid, reports) →
    mid.run options.disableIncludeImport (.ofText text) .metatagPrompt = .ok (last, report) →
    StripsEarliestFree mid.source last.source.current report.settled := by
  intro hrule
  obtain ⟨scan, mid, last, reports, report, hscan, hmid, hlast, hsettled, hinteriors, hsecond⟩ :=
    run_twicePromptedHeader
  have hstrips := hrule {} twicePromptedHeader scan mid last reports report hscan hmid hlast
  refine hstrips.of_zero hsettled _ hsecond fun region hregion _ byte hbyte hinside => ?_
  have hinterior : region.interior ∈ mid.source.regions.map Region.interior := List.mem_map_of_mem hregion
  rw [hinteriors, List.mem_singleton] at hinterior
  rw [hinterior] at hinside
  have hbehind : 224 ≤ byte := hbyte.1
  have hbefore : byte < 217 := hinside.2
  omega

end TaggedHeader
