import TaggedHeader.Proofs.Region.Guarded
import TaggedHeader.Proofs.Reports
import TaggedHeader.Proofs.Tag.Quiet

/-!
# Markers on lines of their own

A header whose only tags are the two markers of preserved regions, each on a line of its own, becomes the same lines
without the markers. Such a header falls into lines before the first region and one block for each region: its begin
marker, the lines between the markers, its end marker and the lines behind it. Every marker takes the newline before it
along, so nothing is left of its line. At the start of the text there is no newline before: the begin marker takes the
one behind it, and if that is also the one before the end marker, the end marker has none left to take. Then, and only
then, the line of the markers stays, empty.
-/

namespace TaggedHeader

open Text Substitution

/-! ## Lines with markers -/

/-- The line that a preserved region begins with. -/
def beginLine : Text := "/*[ignore begin]*/".toList

/-- The line that a preserved region ends with. -/
def endLine : Text := "/*[ignore end]*/".toList

/-- Whether a line is a marker. -/
def isMarkerLine (line : Text) : Bool := line == beginLine || line == endLine

/-- A line on which neither a tag nor a comment starts. -/
def IsPlainLine (line : Text) : Prop :=
  ∀ word ∈ [Tag.bracketOpen, Lexeme.includeWord, commentMark], ¬ word <:+: line

instance (line : Text) : Decidable (IsPlainLine line) := inferInstanceAs (Decidable (∀ word ∈ _, _))

theorem IsPlainLine.quiet {line : Text} (h : IsPlainLine line) : Quiet line :=
  ⟨h _ List.mem_cons_self, h _ (List.mem_cons_of_mem _ List.mem_cons_self)⟩

theorem IsPlainLine.comment {line : Text} (h : IsPlainLine line) : ¬ commentMark <:+: line :=
  h _ (List.mem_cons_of_mem _ (List.mem_cons_of_mem _ List.mem_cons_self))

/-- Lines on which begin and end markers alternate, a begin marker first and an end marker last, and that are plain
otherwise. -/
structure AreMarkedLines (lines : List Text) : Prop where
  alternate : ∃ count, lines.filter isMarkerLine = (List.replicate count [beginLine, endLine]).flatten
  plain : ∀ line ∈ lines, isMarkerLine line = false → IsPlainLine line

/-- A preserved region whose markers are lines, with the lines behind it. -/
structure MarkedBlock where
  content : List Text
  behind : List Text

namespace MarkedBlock

/-- The lines of a block, markers included. -/
def lines (block : MarkedBlock) : List Text := beginLine :: (block.content ++ endLine :: block.behind)

/-- The lines of a block without the markers. -/
def kept (block : MarkedBlock) : List Text := block.content ++ block.behind

/-- The text of a block. -/
def text (block : MarkedBlock) : Text := joinWith '\n' block.lines

theorem text_eq (block : MarkedBlock) :
    block.text = beginLine ++ (linesBehind block.content ++ '\n' :: (endLine ++ linesBehind block.behind)) := by
  rw [text, lines, joinWith_cons, linesBehind_append]
  rfl

/-- Lines with markers in turn fall into blocks. -/
theorem exists_blocks {count : Nat} {lines : List Text}
    (h : lines.filter isMarkerLine = (List.replicate count [beginLine, endLine]).flatten) :
    ∃ (lead : List Text) (blocks : List MarkedBlock), lines = lead ++ blocks.flatMap MarkedBlock.lines ∧
      lines.filter (!isMarkerLine ·) = lead ++ blocks.flatMap kept := by
  have hkept : ∀ {part : List Text}, (∀ line ∈ part, ¬ isMarkerLine line = true) →
      part.filter (!isMarkerLine ·) = part := fun hpart =>
    List.filter_eq_self.mpr fun line hline => by simp [hpart line hline]
  induction count generalizing lines with
  | zero =>
    have hnone := List.filter_eq_nil_iff.mp h
    exact ⟨lines, [], (List.append_nil _).symm, by rw [hkept hnone]; exact (List.append_nil _).symm⟩
  | succ count ih =>
    obtain ⟨lead, more, rfl, hlead, -, hmore⟩ := List.filter_eq_cons_iff.mp h
    obtain ⟨content, rest, rfl, hcontent, -, hrest⟩ := List.filter_eq_cons_iff.mp hmore
    obtain ⟨behind, blocks, rfl, hfilter⟩ := ih hrest
    refine ⟨lead, ⟨content, behind⟩ :: blocks, by simp [MarkedBlock.lines], ?_⟩
    have hbegin : (!isMarkerLine beginLine) = false := by decide
    have hend : (!isMarkerLine endLine) = false := by decide
    simp only [List.filter_append, List.filter_cons, hbegin, hend, hkept hlead, hkept hcontent] at hfilter ⊢
    simp [hfilter, kept]

/-! ### Tags -/

/-- The marker on a begin line that starts at an offset. -/
def beginTag (offset : Nat) : Tag := .ofContent "ignore begin".toList offset

/-- The marker on an end line that starts at an offset. -/
def endTag (offset : Nat) : Tag := .ofContent "ignore end".toList offset

/-- The markers of a block that starts at an offset. -/
def tags (block : MarkedBlock) (offset : Nat) : List Tag :=
  [beginTag offset, endTag (offset + size beginLine + size (linesBehind block.content) + 1)]

/-- The markers of blocks that follow a text up to an offset, each behind a newline. -/
def tagsFrom : (offset : Nat) → List MarkedBlock → List Tag
  | _, [] => []
  | offset, block :: blocks => block.tags (offset + 1) ++ tagsFrom (offset + 1 + size block.text) blocks

/-- Blocks that follow another line, each behind its newline. -/
def textBehind (blocks : List MarkedBlock) : Text := blocks.flatMap ('\n' :: ·.text)

theorem textBehind_endsLine (blocks : List MarkedBlock) : (textBehind blocks).EndsLine := by
  cases blocks with
  | nil => exact .inl rfl
  | cons block blocks => exact .inr ⟨_, rfl⟩

/-- The lines between and behind the markers of a block have no tags. -/
structure IsQuiet (block : MarkedBlock) : Prop where
  content : (linesBehind block.content).Quiet
  behind : (linesBehind block.behind).Quiet

variable {block : MarkedBlock} {blocks : List MarkedBlock} {offset resume : Nat} {more : Text}

theorem beginLine_eq : beginLine = Tag.bracketed "ignore begin".toList := by decide

theorem endLine_eq : endLine = Tag.bracketed "ignore end".toList := by decide

theorem span_beginTag (offset : Nat) : (beginTag offset).span = ⟨offset, offset + size beginLine⟩ := by
  rw [beginLine_eq]
  rfl

theorem span_endTag (offset : Nat) : (endTag offset).span = ⟨offset, offset + size endLine⟩ := by
  rw [endLine_eq]
  rfl

theorem scanFrom_beginLine (hmore : more.EndsLine) (hresume : resume ≤ offset) :
    scanFrom offset resume (beginLine ++ more) =
      beginTag offset :: scanFrom (offset + size beginLine) (offset + size beginLine) more := by
  rw [beginLine_eq]
  exact scanFrom_bracketed (by decide) (by decide) (by decide +kernel) hmore hresume

theorem scanFrom_endLine (hmore : more.EndsLine) (hresume : resume ≤ offset) :
    scanFrom offset resume (endLine ++ more) =
      endTag offset :: scanFrom (offset + size endLine) (offset + size endLine) more := by
  rw [endLine_eq]
  exact scanFrom_bracketed (by decide) (by decide) (by decide +kernel) hmore hresume

/-- A scan finds the markers of a block. -/
theorem scanFrom_text (h : block.IsQuiet) (hmore : more.EndsLine) (hresume : resume ≤ offset) :
    scanFrom offset resume (block.text ++ more) =
      block.tags offset ++ scanFrom (offset + size block.text) (offset + size block.text) more := by
  have hbehind : (linesBehind block.behind ++ more).EndsLine := (linesBehind_endsLine _).append hmore
  have hcontent : (linesBehind block.content ++ '\n' :: (endLine ++ (linesBehind block.behind ++ more))).EndsLine :=
    (linesBehind_endsLine _).append (.inr ⟨_, rfl⟩)
  have hsize : size block.text = size beginLine + size (linesBehind block.content) + 1 + size endLine +
      size (linesBehind block.behind) := by
    rw [text_eq, size_append, size_append, size_newline_cons, size_append]
    omega
  calc scanFrom offset resume (block.text ++ more)
    _ = scanFrom offset resume (beginLine ++
          (linesBehind block.content ++ '\n' :: (endLine ++ (linesBehind block.behind ++ more)))) := by
        simp only [text_eq, List.append_assoc, List.cons_append]
    _ = beginTag offset :: scanFrom (offset + size beginLine + size (linesBehind block.content) + 1)
          (offset + size beginLine) (endLine ++ (linesBehind block.behind ++ more)) := by
        rw [scanFrom_beginLine hcontent hresume, scanFrom_append_of_quiet h.content (.inr ⟨_, rfl⟩), scanFrom_newline]
    _ = block.tags offset ++ scanFrom (offset + size block.text)
          (offset + size beginLine + size (linesBehind block.content) + 1 + size endLine) more := by
        rw [scanFrom_endLine hbehind (by omega), scanFrom_append_of_quiet h.behind hmore, hsize]
        simp only [tags, Nat.add_assoc, List.cons_append, List.nil_append]
    _ = block.tags offset ++ scanFrom (offset + size block.text) (offset + size block.text) more := by
        rw [scanFrom_congr_resume (by omega) (Nat.le_refl _)]

/-- A scan finds the markers of all blocks. -/
theorem scanFrom_textBehind (h : ∀ block ∈ blocks, block.IsQuiet) (hresume : resume ≤ offset) :
    scanFrom offset resume (textBehind blocks) = tagsFrom offset blocks := by
  induction blocks generalizing offset resume with
  | nil => rw [textBehind, List.flatMap_nil, scanFrom, tagsFrom]
  | cons block blocks ih =>
    obtain ⟨hblock, hblocks⟩ := List.forall_mem_cons.mp h
    have hcons : textBehind (block :: blocks) = '\n' :: (block.text ++ textBehind blocks) := rfl
    rw [hcons, scanFrom_newline, scanFrom_text hblock (textBehind_endsLine blocks) (by omega),
      ih hblocks (Nat.le_refl _), tagsFrom]

/-! ### Regions -/

theorem marker?_beginTag (offset : Nat) : (beginTag offset).directive.marker? = some (.opening .preserved) := by
  have hparse : Directive.parse (trim "ignore begin".toList) = .ignoreBegin := by decide +kernel
  rw [beginTag, Tag.ofContent, hparse]
  rfl

theorem marker?_endTag (offset : Nat) : (endTag offset).directive.marker? = some (.closing .preserved) := by
  have hparse : Directive.parse (trim "ignore end".toList) = .ignoreEnd := by decide +kernel
  rw [endTag, Tag.ofContent, hparse]
  rfl

/-- A block behind a newline. Both markers take the newline before them along. -/
def guarded (block : MarkedBlock) : Guarded where
  opening := '\n' :: beginLine
  interior := linesBehind block.content
  closing := '\n' :: endLine
  behind := linesBehind block.behind
  opening_ne_nil := List.cons_ne_nil _ _
  closing_ne_nil := List.cons_ne_nil _ _

/-- A block at the start of a text. The begin marker takes the newline behind it along, and the end marker the one
before it unless that is the same. -/
def guardedAtStart (block : MarkedBlock) : Guarded where
  opening := beginLine ++ ['\n']
  interior := joinWith '\n' block.content
  closing := if block.content = [] then endLine else '\n' :: endLine
  behind := linesBehind block.behind
  opening_ne_nil := by decide
  closing_ne_nil := by split <;> decide

theorem text_guarded (block : MarkedBlock) : block.guarded.text = '\n' :: block.text := by
  simp [Guarded.text, guarded, text_eq]

theorem text_guardedAtStart (block : MarkedBlock) : block.guardedAtStart.text = block.text := by
  rw [text_eq]
  cases hcontent : block.content with
  | nil => simp [Guarded.text, guardedAtStart, hcontent, joinWith, linesBehind]
  | cons line lines => simp [Guarded.text, guardedAtStart, hcontent, joinWith_cons, linesBehind]

/-- A look behind the newline before an end line finds it. -/
theorem followsNewline_endLine (block : MarkedBlock) (before after : Text) :
    followsNewline (before ++ (block.text ++ after))
      (size before + size beginLine + size (linesBehind block.content) + 1) = .ok true := by
  have htext : before ++ (block.text ++ after) = (before ++ (beginLine ++ linesBehind block.content)) ++
      '\n' :: (endLine ++ (linesBehind block.behind ++ after)) := by
    simp only [text_eq, List.append_assoc, List.cons_append]
  have hsize : size before + size beginLine + size (linesBehind block.content) =
      size (before ++ (beginLine ++ linesBehind block.content)) := by
    rw [size_append, size_append, Nat.add_assoc]
  rw [htext, hsize]
  exact followsNewline_behind _ _

/-- The region of a block behind a newline. -/
theorem markedRegion_guarded (block : MarkedBlock) (before after : Text) :
    markedRegion (before ++ ['\n'] ++ (block.text ++ after)) .preserved (beginTag (size before + 1)).span
        (endTag (size before + 1 + size beginLine + size (linesBehind block.content) + 1)).span =
      .ok (block.guarded.region (size before)) := by
  have hsize : size (before ++ ['\n']) = size before + 1 := by
    rw [size_append]
    rfl
  have hopening : followsNewline (before ++ ['\n'] ++ (block.text ++ after)) (size before + 1) = .ok true := by
    rw [List.append_assoc]
    exact followsNewline_behind before _
  have hclosing := block.followsNewline_endLine (before ++ ['\n']) after
  have hnext : IsBoundary (before ++ ['\n'] ++ (block.text ++ after)) (size before + 1 + size beginLine) :=
    ⟨before ++ ['\n'] ++ beginLine, linesBehind block.content ++ '\n' :: (endLine ++ (linesBehind block.behind ++ after)),
      by simp only [text_eq, List.append_assoc, List.cons_append], by rw [size_append, hsize]⟩
  rw [hsize] at hclosing
  rw [span_beginTag, span_endTag, markedRegion_behind hopening hnext hclosing (by simp only; omega)]
  simp only [Guarded.region, guarded, size_newline_cons, Except.ok.injEq, Region.mk.injEq, Span.mk.injEq, true_and]
  omega

/-- The markers of blocks behind newlines pair up in turn. -/
theorem pairInTurn_tagsFrom (before : Text) (blocks : List MarkedBlock) :
    PairInTurn (before ++ textBehind blocks) (tagsFrom (size before) blocks)
      (Guarded.regionsFrom (size before) (blocks.map guarded)) := by
  induction blocks generalizing before with
  | nil => exact .nil
  | cons block blocks ih =>
    have htext : before ++ textBehind (block :: blocks) = before ++ ['\n'] ++ (block.text ++ textBehind blocks) := by
      simp [textBehind]
    have hsize : size (before ++ ['\n'] ++ block.text) = size before + 1 + size block.text := by
      rw [size_append, size_append]
      rfl
    have hguarded : size before + size block.guarded.text = size before + 1 + size block.text := by
      rw [text_guarded, size_newline_cons]
      omega
    have hrest := ih (before ++ ['\n'] ++ block.text)
    rw [hsize, List.append_assoc] at hrest
    rw [htext, List.map_cons, Guarded.regionsFrom, hguarded, tagsFrom]
    exact .cons (marker?_beginTag _) (marker?_endTag _) (block.markedRegion_guarded before _) hrest

/-- The region of a block at the start of a text. -/
theorem markedRegion_guardedAtStart (block : MarkedBlock) (after : Text) :
    markedRegion (block.text ++ after) .preserved (beginTag 0).span
        (endTag (0 + size beginLine + size (linesBehind block.content) + 1)).span =
      .ok (block.guardedAtStart.region 0) := by
  have hclosing : followsNewline (block.text ++ after)
      (0 + size beginLine + size (linesBehind block.content) + 1) = .ok true := block.followsNewline_endLine [] after
  have hnext : charAt (size beginLine) (block.text ++ after) = .ok (some '\n') := by
    have hhead : ∀ more, (linesBehind block.content ++ '\n' :: more).head? = some '\n' := fun more => by
      cases block.content <;> rfl
    rw [text_eq, List.append_assoc, charAt_append, List.append_assoc, List.cons_append, hhead]
  have hopening : size (beginLine ++ ['\n']) = size beginLine + 1 := by
    rw [size_append]
    rfl
  rw [Nat.zero_add] at hclosing ⊢
  rw [span_beginTag, span_endTag, Nat.zero_add, markedRegion_start hnext hclosing, Except.ok.injEq]
  cases hcontent : block.content with
  | nil =>
    simp [Guarded.region, guardedAtStart, hcontent, hopening, linesBehind, joinWith, size]
  | cons line lines =>
    have hlines : size (linesBehind (line :: lines)) = size (joinWith '\n' (line :: lines)) + 1 := by
      rw [linesBehind_cons, size_newline_cons]
    have hlt : size beginLine + 1 < size beginLine + (size (joinWith '\n' (line :: lines)) + 1) + 1 := by omega
    simp only [Guarded.region, guardedAtStart, hcontent, hopening, hlines, if_pos hlt, size_newline_cons, reduceCtorEq,
      if_false, Region.mk.injEq, Span.mk.injEq, true_and]
    omega

/-- The markers of blocks at the start of a text pair up in turn. -/
theorem pairInTurn_start (block : MarkedBlock) (blocks : List MarkedBlock) :
    PairInTurn (block.text ++ textBehind blocks) (block.tags 0 ++ tagsFrom (size block.text) blocks)
      (Guarded.regionsFrom 0 (block.guardedAtStart :: blocks.map guarded)) := by
  rw [Guarded.regionsFrom, text_guardedAtStart, Nat.zero_add]
  exact .cons (marker?_beginTag _) (marker?_endTag _) (block.markedRegion_guardedAtStart _)
    (pairInTurn_tagsFrom block.text blocks)

end MarkedBlock

/-! ## The conversion -/

/-- A header whose tags are the markers of regions that follow each other is left without the markers, as long as what
is left has no comments. -/
theorem exists_transform_of_pairInTurn (options : TransformOptions) {front : Text} {parts : List Guarded}
    (h : PairInTurn (front ++ parts.flatMap Guarded.text) (scanTags (front ++ parts.flatMap Guarded.text))
      (Guarded.regionsFrom (size front) parts))
    (hcomment : ¬ commentMark <:+: front ++ parts.flatMap Guarded.rest) :
    ∃ result, transform options (front ++ parts.flatMap Guarded.text) = .ok result ∧
      result.text = front ++ parts.flatMap Guarded.rest := by
  obtain ⟨scan, hscan, hregions⟩ := h.exists_scanRegions
  obtain ⟨mid, last, report, hsettles, -, hlast, hfinal⟩ := exists_finalDraft options hscan
  -- A pass settles no marker, so all that goes are the markers of the regions.
  have hnone : (tagPasses.flatMap fun pass => pass.settledTags options.disableIncludeImport scan.regions
      (scanTags (front ++ parts.flatMap Guarded.text))).reverse = [] := by
    refine List.eq_nil_iff_forall_not_mem.mpr fun tag htag => ?_
    obtain ⟨pass, -, hsettled⟩ := List.mem_flatMap.mp (List.mem_reverse.mp htag)
    exact h.marker?_ne_none tag (hsettles.outside tag htag).1
      (Pass.marker?_of_accepts (Draft.accepts_of_mem_settledTags hsettled))
  have hswept : mid.source.current = front ++ parts.flatMap Guarded.rest := by
    have hbehind := Guarded.behind_cuts (size front) parts
    have hcurrent := hsettles.sweeps.current
    rw [hnone] at hcurrent
    calc mid.source.current
      _ = sweep (cuts scan.regions) 0 (front ++ parts.flatMap Guarded.text) := hcurrent
      _ = front ++ parts.flatMap Guarded.rest := by
        rw [← Nat.zero_add (size front)] at hbehind
        rw [hregions, ← Nat.zero_add (size front), hbehind.sweep_kept, Guarded.sweep_regionsFrom]
  have hprompt := findPrompt?_eq_none (hswept ▸ hcomment)
  rcases Draft.stripPrompt_cases hlast with ⟨-, rfl, -⟩ | ⟨range, hrange, -⟩
  · simp only [transform, hfinal, bind, Except.bind, pure, Except.pure]
    exact ⟨_, rfl, hswept⟩
  · rw [hprompt] at hrange
    cases hrange

namespace MarkedBlock

variable {lead : List Text} {block : MarkedBlock} {blocks : List MarkedBlock}

theorem textBehind_eq (blocks : List MarkedBlock) : textBehind blocks = linesBehind (blocks.flatMap lines) := by
  induction blocks with
  | nil => rfl
  | cons block blocks ih =>
    have hblock : linesBehind block.lines = '\n' :: block.text := linesBehind_cons _ _
    rw [List.flatMap_cons, linesBehind_append, ← ih, hblock]
    rfl

theorem flatMap_text_guarded (blocks : List MarkedBlock) :
    (blocks.map guarded).flatMap Guarded.text = textBehind blocks := by
  rw [List.flatMap_map, textBehind]
  exact List.flatMap_congr fun block _ => block.text_guarded

theorem flatMap_rest_guarded (blocks : List MarkedBlock) :
    (blocks.map guarded).flatMap Guarded.rest = linesBehind (blocks.flatMap kept) := by
  induction blocks with
  | nil => rfl
  | cons block blocks ih =>
    rw [List.map_cons, List.flatMap_cons, List.flatMap_cons, linesBehind_append, kept, linesBehind_append, ih]
    rfl

/-- What is left of a block at the start of a text, in front of more lines. -/
theorem rest_guardedAtStart (block : MarkedBlock) (more : List Text) :
    joinWith '\n' ((if block.content = [] then [[]] else []) ++ (block.kept ++ more)) =
      block.guardedAtStart.rest ++ linesBehind more := by
  have hrest : block.guardedAtStart.rest = joinWith '\n' block.content ++ linesBehind block.behind := rfl
  rw [hrest, kept, List.append_assoc, List.append_assoc, ← linesBehind_append]
  by_cases hcontent : block.content = []
  · rw [if_pos hcontent, List.singleton_append, joinWith_cons, hcontent, List.nil_append]
    rfl
  · rw [if_neg hcontent, List.nil_append, joinWith_append hcontent]

/-- A block starts with a begin and an end marker when there are no lines between the two. -/
theorem prefix_lines_iff (block : MarkedBlock) (h : ∀ line ∈ block.content, isMarkerLine line = false) (more : List Text) :
    [beginLine, endLine] <+: block.lines ++ more ↔ block.content = [] := by
  rw [lines, List.cons_append, List.cons_prefix_cons, and_iff_right rfl]
  cases hcontent : block.content with
  | nil => simp
  | cons line rest =>
    refine iff_of_false (fun hbegins => ?_) (List.cons_ne_nil line rest)
    have hline := h line (hcontent ▸ List.mem_cons_self)
    rw [List.cons_append, List.cons_append, List.cons_prefix_cons] at hbegins
    rw [← hbegins.1] at hline
    cases hline

theorem quiet_of_plain (h : ∀ line ∈ block.kept, IsPlainLine line) : block.IsQuiet :=
  ⟨.linesBehind fun line hline => (h line (List.mem_append_left _ hline)).quiet,
    .linesBehind fun line hline => (h line (List.mem_append_right _ hline)).quiet⟩

/-- Lines of which none has a comment make a text without comments. -/
theorem notInfix_of_plain {lines : List Text} (h : ∀ line ∈ lines, IsPlainLine line) :
    ¬ commentMark <:+: joinWith '\n' lines :=
  notInfix_joinWith (by decide) (by decide) fun line hline => (h line hline).comment

/-- Blocks behind other lines. -/
theorem exists_transform_lead (options : TransformOptions) (hlead : lead ≠ [])
    (hplain : ∀ line ∈ lead ++ blocks.flatMap kept, IsPlainLine line) :
    ∃ result, transform options (joinWith '\n' (lead ++ blocks.flatMap lines)) = .ok result ∧
      result.text = joinWith '\n' (lead ++ blocks.flatMap kept) := by
  have hcomment := notInfix_of_plain hplain
  obtain ⟨hplainLead, hplainBlocks⟩ := List.forall_mem_append.mp hplain
  have hquietLead := Quiet.joinWith fun line hline => (hplainLead line hline).quiet
  have hquiet : ∀ block ∈ blocks, block.IsQuiet := fun block hblock =>
    quiet_of_plain fun line hline => hplainBlocks line (List.mem_flatMap_of_mem hblock hline)
  have htext : joinWith '\n' (lead ++ blocks.flatMap lines) =
      joinWith '\n' lead ++ (blocks.map guarded).flatMap Guarded.text := by
    rw [joinWith_append hlead, ← textBehind_eq, flatMap_text_guarded]
  have hrest : joinWith '\n' (lead ++ blocks.flatMap kept) =
      joinWith '\n' lead ++ (blocks.map guarded).flatMap Guarded.rest := by
    rw [joinWith_append hlead, flatMap_rest_guarded]
  rw [hrest] at hcomment
  rw [htext, hrest]
  refine exists_transform_of_pairInTurn options ?_ hcomment
  rw [flatMap_text_guarded, scanTags, scanFrom_append_of_quiet hquietLead (textBehind_endsLine blocks),
    scanFrom_textBehind hquiet (Nat.zero_le _), Nat.zero_add]
  exact pairInTurn_tagsFrom _ blocks

/-- Blocks at the start of a text. -/
theorem exists_transform_start (options : TransformOptions)
    (hplain : ∀ line ∈ (block :: blocks).flatMap kept, IsPlainLine line) :
    ∃ result, transform options (joinWith '\n' ((block :: blocks).flatMap lines)) = .ok result ∧
      result.text = joinWith '\n' ((if block.content = [] then [[]] else []) ++ (block :: blocks).flatMap kept) := by
  have hquiet : ∀ other ∈ block :: blocks, other.IsQuiet := fun other hother =>
    quiet_of_plain fun line hline => hplain line (List.mem_flatMap_of_mem hother hline)
  obtain ⟨hquietBlock, hquietBlocks⟩ := List.forall_mem_cons.mp hquiet
  have htext : joinWith '\n' ((block :: blocks).flatMap lines) =
      [] ++ (block.guardedAtStart :: blocks.map guarded).flatMap Guarded.text := by
    rw [List.nil_append, List.flatMap_cons, List.flatMap_cons, text_guardedAtStart, flatMap_text_guarded, textBehind_eq]
    exact joinWith_append (List.cons_ne_nil _ _) _
  have hrest : joinWith '\n' ((if block.content = [] then [[]] else []) ++ (block :: blocks).flatMap kept) =
      [] ++ (block.guardedAtStart :: blocks.map guarded).flatMap Guarded.rest := by
    rw [List.nil_append, List.flatMap_cons, List.flatMap_cons, flatMap_rest_guarded, rest_guardedAtStart]
  have hcomment : ¬ commentMark <:+:
      joinWith '\n' ((if block.content = [] then [[]] else []) ++ (block :: blocks).flatMap kept) := by
    refine notInfix_of_plain (List.forall_mem_append.mpr ⟨fun line hline => ?_, hplain⟩)
    split at hline
    · rw [List.mem_singleton.mp hline]
      decide
    · cases hline
  rw [hrest] at hcomment
  rw [htext, hrest]
  refine exists_transform_of_pairInTurn options ?_ hcomment
  rw [List.nil_append, List.flatMap_cons, text_guardedAtStart, flatMap_text_guarded, scanTags,
    scanFrom_text hquietBlock (textBehind_endsLine blocks) (Nat.le_refl _),
    scanFrom_textBehind hquietBlocks (Nat.le_refl _), Nat.zero_add]
  exact pairInTurn_start block blocks

end MarkedBlock

/-- The lines that are left when the markers go: those that are no markers and, where the first line and the second
one are a begin and an end marker, one empty line in front. -/
def unmarkedLines (lines : List Text) : List Text :=
  (if [beginLine, endLine] <+: lines then [[]] else []) ++ lines.filter (!isMarkerLine ·)

/-- Markers on lines of their own vanish with their lines.

Lines on which begin and end markers alternate, with neither tags nor comments on the other lines, become the lines
without the markers. Where a begin marker on the first line is directly followed by an end marker, only one newline
stands between the two, and one empty line is left in front. -/
theorem transform_markedLines (options : TransformOptions) {lines : List Text} (h : AreMarkedLines lines) :
    ∃ result, transform options (joinWith '\n' lines) = .ok result ∧
      result.text = joinWith '\n' (unmarkedLines lines) := by
  obtain ⟨⟨count, halternate⟩, hplain⟩ := h
  obtain ⟨lead, blocks, rfl, hkept⟩ := MarkedBlock.exists_blocks halternate
  have hunmarked : ∀ line ∈ lead ++ blocks.flatMap MarkedBlock.kept,
      isMarkerLine line = false ∧ IsPlainLine line := by
    intro line hline
    rw [← hkept, List.mem_filter, Bool.not_eq_true'] at hline
    exact ⟨hline.2, hplain line hline.1 hline.2⟩
  obtain ⟨hplainLead, hplainBlocks⟩ := List.forall_mem_append.mp hunmarked
  rw [unmarkedLines, hkept]
  cases lead with
  | cons line lead =>
    have hfirst : ¬ [beginLine, endLine] <+: line :: lead ++ blocks.flatMap MarkedBlock.lines := by
      intro hbegins
      have hline := (hplainLead line List.mem_cons_self).1
      rw [List.cons_append, List.cons_prefix_cons] at hbegins
      rw [← hbegins.1] at hline
      cases hline
    rw [if_neg hfirst, List.nil_append]
    exact MarkedBlock.exists_transform_lead options (List.cons_ne_nil line lead) fun line hline =>
      (hunmarked line hline).2
  | nil =>
    cases blocks with
    | nil =>
      have hnone : PairInTurn [] (scanTags []) [] := by
        rw [scanTags, scanFrom]
        exact .nil
      exact @exists_transform_of_pairInTurn options [] [] hnone (by decide)
    | cons block blocks =>
      have hcontent : ∀ line ∈ block.content, isMarkerLine line = false := fun line hline =>
        (hplainBlocks line (List.mem_flatMap_of_mem List.mem_cons_self (List.mem_append_left _ hline))).1
      have hfirst := block.prefix_lines_iff hcontent (blocks.flatMap MarkedBlock.lines)
      rw [List.nil_append, List.nil_append, List.flatMap_cons, if_congr hfirst rfl rfl]
      exact MarkedBlock.exists_transform_start options fun line hline => (hplainBlocks line hline).2

/-- A region without lines at the start of a text, and a region with an empty line in it behind that. -/
def twoRegions : List Text :=
  [beginLine, endLine, "int a;".toList, beginLine, [], "int b;".toList, endLine]

theorem transform_markedLines_twoRegions : AreMarkedLines twoRegions ∧
    ∃ result, transform {} (joinWith '\n' twoRegions) = .ok result ∧
      result.text = "\nint a;\n\nint b;".toList := by
  have h : AreMarkedLines twoRegions := ⟨⟨2, by decide⟩, by decide +kernel⟩
  obtain ⟨result, hresult, htext⟩ := transform_markedLines {} h
  exact ⟨h, result, hresult, by rw [htext]; decide +kernel⟩

/-- A line behind a region without lines. -/
def emptyRegion : List Text := [beginLine, endLine, "y".toList]

/-- The markers of a region without lines leave an empty line at the start of a text. -/
theorem emptyRegion_leaves_line : AreMarkedLines emptyRegion ∧ (∀ line ∈ emptyRegion, '\n' ∉ line) ∧
    ∃ result, transform {} (joinWith '\n' emptyRegion) = .ok result ∧ result.text = "\ny".toList ∧
      result.text ≠ joinWith '\n' (emptyRegion.filter (!isMarkerLine ·)) := by
  have htext : (transform {} (joinWith '\n' emptyRegion)).toOption.map Transformation.text = some "\ny".toList := by
    decide +kernel
  obtain ⟨result, hresult, htext⟩ := Option.map_eq_some_iff.mp htext
  refine ⟨⟨⟨1, by decide⟩, by decide +kernel⟩, by decide, result, eq_ok_of_toOption hresult, htext, ?_⟩
  rw [htext]
  decide

end TaggedHeader
