import TaggedHeader.Proofs.Safety

/-!
# The comment that a prompt is

What the last pass puts a newline in place of is a comment of three lines with the blanks around it, all of them: the
text before ends in a visible character, and the text behind starts with one. The lines are told apart by the pattern
that they fit, one pattern for each line and one for the gap between two of them.
-/

namespace TaggedHeader

open Text

variable {text : Text}

/-! ## What a prompt comment says -/

/-- Blanks with a line end among them. -/
structure IsLineBreak (gap : Text) : Prop where
  blanks : Blanks gap
  newline : '\n' ∈ gap

/-- What the first line says before it names the tool. -/
def purposeWords : Text := "This file uses metatags to convert headers to module-interfaces using ".toList

/-- What the second line says before the brackets of an empty tag close. -/
def formatWords : Text := "Any block comment formatted as: /*[".toList

/-- What the second line says from there on. -/
def dependenceWords : Text := "]*/ is a metatag and other code may depend on it.".toList

/-- What the third line says. -/
def cautionWords : Text := "Proceed with caution when modifying such comments.".toList

/-- A line of a comment: the marks, blanks, and what the line says. -/
def commentLine (gap words : Text) : Text := commentMark ++ gap ++ words

/-- A prompt comment: three lines that say what the tags of a header are for, the first of which names the tool. -/
inductive IsPromptComment : Text → Prop
  | lines {tool inner first second third between behind : Text} (htool : tool ≠ [])
    (hname : ∀ c ∈ tool, Pattern.isNameChar c = true) (hinner : Blanks inner) (hfirst : Blanks first)
    (hsecond : Blanks second) (hthird : Blanks third) (hbetween : IsLineBreak between) (hbehind : IsLineBreak behind) :
    IsPromptComment (commentLine first (purposeWords ++ tool ++ ['.']) ++ between ++
      commentLine second (formatWords ++ inner ++ dependenceWords) ++ behind ++ commentLine third cautionWords)

/-- A prompt comment starts with its marks and ends in a full stop. -/
theorem IsPromptComment.isTrimmed (h : IsPromptComment text) : IsTrimmed text := by
  have hmark : IsTrimmed commentMark := ⟨by decide, by decide⟩
  have hwords : IsTrimmed cautionWords := ⟨by decide, by decide⟩
  cases h with
  | @lines tool inner first second third between behind =>
    have hwhole := hmark.append hwords (first ++ (purposeWords ++ tool ++ ['.']) ++ between ++
      commentLine second (formatWords ++ inner ++ dependenceWords) ++ behind ++ (commentMark ++ third))
    simpa only [commentLine, List.append_assoc] using hwhole

/-! ## The lines of the pattern -/

namespace Pattern

/-- The pattern of a line of a comment. -/
def line (words : Pattern) : Pattern := .word commentMark :: .blanks :: words

/-- The pattern of what is between two lines. -/
def lineBreak : Pattern := [.blanks, .word ['\n'], .blanks]

/-- The pattern of what the first line says. -/
def purpose : Pattern := [.word purposeWords, .name, .word ['.']]

/-- The pattern of what the second line says. -/
def format : Pattern := [.word formatWords, .blanks, .word dependenceWords]

/-- The pattern of what the third line says. -/
def caution : Pattern := [.word cautionWords]

/-- The prompt is three lines with blanks around them. -/
theorem promptPattern_eq : promptPattern = .blanks :: ((line purpose ++ lineBreak ++ line format ++ lineBreak ++
    line caution) ++ [.blanks]) := rfl

theorem fits_line_iff {words : Pattern} :
    Fits (line words) text ↔ ∃ gap said, Blanks gap ∧ Fits words said ∧ text = commentLine gap said := by
  constructor
  · rintro ⟨_, _, rfl, ⟨gap, said, hgap, hsaid, rfl⟩, rfl⟩
    exact ⟨gap, said, hgap, hsaid, (List.append_assoc commentMark gap said).symm⟩
  · rintro ⟨gap, said, hgap, hsaid, rfl⟩
    exact ⟨commentMark, gap ++ said, rfl, ⟨gap, said, hgap, hsaid, rfl⟩, List.append_assoc commentMark gap said⟩

theorem isLineBreak_of_fits (h : Fits lineBreak text) : IsLineBreak text := by
  obtain ⟨before, _, hbefore, ⟨_, _, rfl, ⟨after, _, hafter, rfl, rfl⟩, rfl⟩, rfl⟩ := h
  have hnewline : Blanks ['\n'] := fun c hc => by rw [List.mem_singleton.mp hc]; rfl
  exact ⟨Blanks.append hbefore (hnewline.append (Blanks.append hafter blanks_nil)), by simp⟩

theorem exists_tool_of_fits (h : Fits purpose text) : ∃ tool, tool ≠ [] ∧
    (∀ c ∈ tool, isNameChar c = true) ∧ text = purposeWords ++ tool ++ ['.'] := by
  obtain ⟨_, _, rfl, ⟨tool, _, ⟨htool, hname⟩, ⟨_, _, rfl, rfl, rfl⟩, rfl⟩, rfl⟩ := h
  exact ⟨tool, htool, hname, by simp⟩

theorem exists_inner_of_fits (h : Fits format text) : ∃ inner, Blanks inner ∧
    text = formatWords ++ inner ++ dependenceWords := by
  obtain ⟨_, _, rfl, ⟨inner, _, hinner, ⟨_, _, rfl, rfl, rfl⟩, rfl⟩, rfl⟩ := h
  exact ⟨inner, hinner, by simp⟩

theorem eq_of_fits_caution (h : Fits caution text) : text = cautionWords := by
  obtain ⟨_, _, rfl, rfl, rfl⟩ := h
  exact List.append_nil _

/-- What fits the pattern of the prompt is a prompt comment with blanks around it. -/
theorem exists_isPromptComment (h : Fits promptPattern text) :
    ∃ lead comment trail, Blanks lead ∧ IsPromptComment comment ∧ Blanks trail ∧ text = lead ++ comment ++ trail := by
  rw [promptPattern_eq] at h
  obtain ⟨lead, _, hlead, hinside, rfl⟩ := h
  obtain ⟨_, _, hthree, ⟨trail, _, htrail, rfl, rfl⟩, rfl⟩ := exists_of_fits_append hinside
  obtain ⟨_, _, htwoGaps, hthirdLine, rfl⟩ := exists_of_fits_append hthree
  obtain ⟨_, behind, htwo, hbehind, rfl⟩ := exists_of_fits_append htwoGaps
  obtain ⟨_, _, honeGap, hsecondLine, rfl⟩ := exists_of_fits_append htwo
  obtain ⟨_, between, hfirstLine, hbetween, rfl⟩ := exists_of_fits_append honeGap
  obtain ⟨first, _, hfirst, hpurpose, rfl⟩ := fits_line_iff.mp hfirstLine
  obtain ⟨second, _, hsecond, hformat, rfl⟩ := fits_line_iff.mp hsecondLine
  obtain ⟨third, _, hthird, hcaution, rfl⟩ := fits_line_iff.mp hthirdLine
  obtain ⟨tool, htool, hname, rfl⟩ := exists_tool_of_fits hpurpose
  obtain ⟨inner, hinner, rfl⟩ := exists_inner_of_fits hformat
  obtain rfl := eq_of_fits_caution hcaution
  exact ⟨lead, _, trail, hlead, .lines htool hname hinner hfirst hsecond hthird (isLineBreak_of_fits hbetween)
    (isLineBreak_of_fits hbehind), htrail, by simp⟩

end Pattern

/-! ## What the last pass takes away -/

/-- A part of a text gives way to a newline, and the part is a prompt comment with all the blanks around it. -/
structure LosesPrompt (text result before part after : Text) : Prop where
  text_eq : text = before ++ part ++ after
  result_eq : result = before ++ '\n' :: after
  before : ∀ c ∈ before.getLast?, isBlank c = false
  after : ∀ c ∈ after.head?, isBlank c = false
  comment : IsPromptComment (trim part)

/-- Stripping a prompt takes a prompt comment away with the blanks around it. -/
theorem Draft.losesPrompt_of_stripPrompt {draft next : Draft} {report : PassReport}
    (h : draft.stripPrompt = .ok (next, report)) (hsettled : report.settled = 1) :
    ∃ before part after, LosesPrompt draft.source.current next.source.current before part after := by
  rcases stripPrompt_cases h with ⟨-, -, rfl⟩ | ⟨range, hrange, ⟨-, -, rfl⟩ | ⟨-, rfl, edit, happly⟩⟩
  · cases hsettled
  · cases hsettled
  · obtain ⟨⟨before, part, after⟩, hfind, rfl⟩ := Option.map_eq_some_iff.mp hrange
    obtain ⟨source, tags, hreplace, -, rfl⟩ := apply_eq_ok_iff.mp happly
    obtain ⟨before', part', after', hcurrent, hstart, hstop, -, -, -, rfl⟩ :=
      SourceText.replace_eq_ok_iff.mp hreplace
    have htext := Pattern.eq_append_of_find? hfind
    obtain ⟨hfront, hafter⟩ := append_inj_of_size_eq (hcurrent.symm.trans htext)
      (by rw [size_append, size_append, hstop])
    obtain ⟨hbefore, -⟩ := append_inj_of_size_eq hfront hstart
    obtain ⟨lead, comment, trail, hlead, hcomment, htrail, hpart⟩ :=
      Pattern.exists_isPromptComment (Pattern.fits_of_find? hfind)
    refine ⟨before, part, after, htext, ?_, ?_, ?_, ?_⟩
    · rw [hbefore, hafter]
      exact List.append_assoc before ['\n'] after
    · exact Pattern.isBlank_getLast?_of_find? hfind
    · have hrest := Pattern.rest?_of_find? hfind
      rw [Pattern.promptPattern_eq, ← List.cons_append] at hrest
      exact Pattern.isBlank_head?_of_rest? hrest
    · rw [hpart, hcomment.isTrimmed.trim_append hlead htrail]
      exact hcomment

/-- The stripped prompt is a comment with all the blanks around it.

The passes before the last one leave a draft. Where the last pass settles a prompt, the interface is the text of this
draft with a newline for one part of it, and this part is a prompt comment with blanks around it that no further
blank adjoins. -/
theorem stripped_prompt_is_comment (options : TransformOptions) (text : Text) {result : Transformation}
    {report : PassReport} (h : transform options text = .ok result) (hreport : report ∈ result.reports)
    (hpass : report.pass = .metatagPrompt) (hsettled : report.settled = 1) :
    ∃ (scan : RegionScan) (mid : Draft) (reports : List PassReport) (before part after : Text),
      scanRegions text (scanTags text) = .ok scan ∧
      (Draft.ofScan text (scanTags text) scan).runAll options.disableIncludeImport (.ofText text)
        Pass.order.dropLast = .ok (mid, reports) ∧
      LosesPrompt mid.source.current result.text before part after := by
  obtain ⟨⟨draft, all⟩, hfinal, hresult⟩ := bind_eq_ok_iff.mp h
  cases hresult
  obtain ⟨scan, hscan, -⟩ := finalDraft_eq_ok_iff.mp hfinal
  obtain ⟨mid, hmid, hsettles, -⟩ := Draft.exists_runAll hscan tagPasses (by decide) (by decide)
    options.disableIncludeImport (.ofText text)
  obtain ⟨⟨last, stripped⟩, hlast⟩ := Draft.exists_stripPrompt hsettles.sweeps.start_lt_stop_of_mem_tags
  have hfinal' := finalDraft_eq_ok_iff.mpr ⟨scan, hscan, Draft.runAll_append hmid (Draft.runAll_metatagPrompt hlast)⟩
  cases hfinal.symm.trans hfinal'
  -- No other pass reports for the last one.
  have hstripped : report = stripped := by
    rcases List.mem_append.mp hreport with hbefore | hlater
    · have hmem := List.mem_map_of_mem (f := PassReport.pass) hbefore
      rw [hpass] at hmem
      simp [Pass.outcome, tagPasses] at hmem
    · exact List.mem_singleton.mp hlater
  cases hstripped
  obtain ⟨before, part, after, hloses⟩ := Draft.losesPrompt_of_stripPrompt hlast hsettled
  exact ⟨scan, mid, _, before, part, after, hscan, hmid, hloses⟩

/-- A header with a prompt between blank lines, the lines of which are indented. The name of the tool has dots in it. -/
def indentedPromptHeader : Text :=
  "int a;\n\n  ".toList ++ commentLine " ".toList (purposeWords ++ "tool-1.2".toList ++ ".".toList) ++ " \n\t".toList ++
    commentLine [] (formatWords ++ " ".toList ++ dependenceWords) ++ "\n\n".toList ++
    commentLine "  ".toList cautionWords ++ "\n \nint b;\n".toList

theorem stripped_prompt_is_comment_indentedPromptHeader : ∃ (result : Transformation) (mid : Draft)
    (before part after : Text), transform {} indentedPromptHeader = .ok result ∧
      result.text = "int a;\nint b;\n".toList ∧ LosesPrompt mid.source.current result.text before part after := by
  have hrun : ((transform {} indentedPromptHeader).toOption.bind fun result =>
      (result.reports.find? fun report => report.pass == .metatagPrompt).map fun report =>
        (result.text, report.settled)) = some ("int a;\nint b;\n".toList, 1) := by decide +kernel
  obtain ⟨result, hresult, hrun⟩ := Option.bind_eq_some_iff.mp hrun
  obtain ⟨report, hfound, hreport⟩ := Option.map_eq_some_iff.mp hrun
  obtain ⟨htext, hsettled⟩ := Prod.mk.inj hreport
  have hpass := List.find?_some hfound
  obtain ⟨_, mid, _, before, part, after, -, -, hloses⟩ := stripped_prompt_is_comment {} indentedPromptHeader
    (eq_ok_of_toOption hresult) (List.mem_of_find?_eq_some hfound) (eq_of_beq hpass) hsettled
  exact ⟨result, mid, before, part, after, eq_ok_of_toOption hresult, htext, hloses⟩

end TaggedHeader
