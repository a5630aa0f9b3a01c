import TaggedHeader.Proofs.Tag.Spelling

/-!
# Scanning is local at line breaks

No lexeme reaches over the end of a line, and the text that a step leaves is all that the steps behind it see. So a
scan of two texts with a newline between them finds the tags of the first text and, moved, the tags of the second,
unless a comment that the first text opens ends in the second. The induction follows the steps through the first
text, where each step does the same with the second text behind it; what a scan carries beyond the newline is only
where it resumes, and that is not behind the newline.
-/

namespace TaggedHeader

open Text

/-- The same tag in a text with `distance` more bytes in front. -/
def Tag.shift (distance : Nat) (tag : Tag) : Tag :=
  { tag with span := ⟨tag.span.start + distance, tag.span.stop + distance⟩, origin := tag.origin + distance }

/-! ## One step in front of a newline -/

theorem Text.takeWhile_append_newline {p : Char → Bool} (hp : p '\n' = false) (text more : Text) :
    (text ++ '\n' :: more).takeWhile p = text.takeWhile p := by
  induction text with
  | nil => exact List.takeWhile_cons_of_neg (by simp [hp])
  | cons c text ih => simp only [List.cons_append, List.takeWhile_cons, ih]

theorem Text.dropWhile_append_newline {p : Char → Bool} (hp : p '\n' = false) (text more : Text) :
    (text ++ '\n' :: more).dropWhile p = text.dropWhile p ++ '\n' :: more := by
  induction text with
  | nil => exact List.dropWhile_cons_of_neg (by simp [hp])
  | cons c text ih =>
    simp only [List.cons_append, List.dropWhile_cons, ih]
    split <;> rfl

theorem Text.commonPrefix_append_newline {word : Text} (hword : '\n' ∉ word) (text more : Text) :
    commonPrefix word (text ++ '\n' :: more) =
      ((commonPrefix word text).1, (commonPrefix word text).2 ++ '\n' :: more) := by
  fun_induction commonPrefix word text with
  | case1 w word text shared rest hshared ih =>
    have hrest := ih fun hmem => hword (List.mem_cons_of_mem _ hmem)
    rw [hshared] at hrest
    rw [List.cons_append, commonPrefix, if_pos rfl, hrest]
  | case2 w word c text hne => rw [List.cons_append, commonPrefix, if_neg hne]
  | case3 word text hshape =>
    cases word with
    | nil => rfl
    | cons w word =>
      cases text with
      | nil =>
        have hne : w ≠ '\n' := fun heq => hword (heq ▸ List.mem_cons_self)
        rw [List.nil_append, commonPrefix, if_neg hne]
      | cons c text => exact (hshape w word c text rfl rfl).elim

namespace Lexeme

/-- A step in a text that goes on behind what the step was given. -/
def Step.extend (step : Step) (more : Text) : Step := { step with rest := step.rest ++ more }

theorem readComment_append_newline (text more : Text) :
    readComment (text ++ '\n' :: more) = (readComment text).extend ('\n' :: more) := by
  fun_cases readComment text with
  | case1 rest => rfl
  | case2 rest hbracket | case3 rest hliteral hbracket =>
    cases rest with
    | nil => rfl
    | cons c rest =>
      have hc : c ≠ '[' := fun heq => hbracket rest (by rw [heq])
      simp [readComment, Step.extend, hc]
  | case4 rest hliteral hbracket hstar =>
    cases text with
    | nil => rfl
    | cons c rest =>
      have hc : c ≠ '*' := fun heq => hstar rest (by rw [heq])
      simp [readComment, Step.extend, hc]

theorem readInclusion_append_newline (word text more : Text) :
    readInclusion word (text ++ '\n' :: more) = (readInclusion word text).extend ('\n' :: more) := by
  have hgap : isGap '\n' = false := rfl
  have hbracketed : isBracketed '\n' = false := rfl
  simp only [readInclusion, takeWhile_append_newline hgap, dropWhile_append_newline hgap]
  cases text.dropWhile isGap with
  | nil => rfl
  | cons c inner =>
    by_cases hc : c = '<'
    · subst hc
      simp only [List.cons_append, takeWhile_append_newline hbracketed, dropWhile_append_newline hbracketed]
      cases inner.dropWhile isBracketed with
      | nil => rfl
      | cons d rest =>
        by_cases hd : d = '>'
        · subst hd
          rfl
        · simp [Step.extend, hd]
    · simp [Step.extend, hc]

/-- A step does the same in front of a newline as at the end of a text. -/
theorem read_append_newline {text : Text} (h : text ≠ []) (more : Text) :
    read (text ++ '\n' :: more) = (read text).extend ('\n' :: more) := by
  have hword : '\n' ∉ includeWord := by decide
  fun_cases read text with
  | case1 => exact absurd rfl h
  | case2 rest => exact readComment_append_newline rest more
  | case3 rest tail hsplit =>
    have hjoint := commonPrefix_append_newline hword ('#' :: rest) more
    rw [hsplit, List.cons_append] at hjoint
    simp only [List.cons_append, read, hjoint, if_pos, readInclusion_append_newline]
  | case4 rest shared tail hsplit hshared =>
    have hjoint := commonPrefix_append_newline hword ('#' :: rest) more
    rw [hsplit, List.cons_append] at hjoint
    simp only [List.cons_append, read, hjoint, if_neg hshared, Step.extend]
  | case5 c rest hslash hhash =>
    rw [List.cons_append, read]
    · rfl
    · exact hslash
    · exact hhash

end Lexeme

namespace Tag

/-! ## One tag in front of a newline -/

theorem splitClose_append_of_some {body comment rest : Text} (h : splitClose body = some (comment, rest))
    (more : Text) : splitClose (body ++ more) = some (comment, rest ++ more) := by
  obtain ⟨rfl, hnone⟩ := eq_append_of_splitClose h
  rw [List.append_assoc (comment ++ commentClose), splitClose_append _ hnone]

/-- A comment that does not end on its line goes on behind the newline. -/
theorem size_lt_of_splitClose {body more comment rest : Text} (hbody : splitClose body = none)
    (h : splitClose (body ++ '\n' :: more) = some (comment, rest)) : size body < size comment := by
  obtain ⟨hwhole, hnone⟩ := eq_append_of_splitClose h
  rw [List.append_assoc] at hwhole
  rcases List.append_eq_append_iff.mp hwhole with ⟨middle, rfl, hmiddle⟩ | ⟨middle, rfl, hmiddle⟩
  · have hnonempty : middle ≠ [] := by
      rintro rfl
      cases hmiddle
    have hpos := size_pos hnonempty
    rw [size_append]
    omega
  · -- The first end of a comment would stand in the body, since it does not fall apart at the newline.
    obtain ⟨behind, rfl⟩ : ∃ behind, middle = commentClose ++ behind := by
      rcases middle with _ | ⟨c, _ | ⟨d, behind⟩⟩
      · cases hmiddle
      · cases hmiddle
      · cases hmiddle
        exact ⟨behind, rfl⟩
    rw [← List.append_assoc, splitClose_append _ hnone] at hbody
    cases hbody

section

variable {opener closer body : Text} {reading : Text → Directive} {offset : Nat} {tag : Tag}

/-- A comment that ends makes the same tag with more text behind it. -/
theorem commentTag?_append (hbody : splitClose body ≠ none) (more : Text) :
    commentTag? opener closer reading offset (body ++ more) = commentTag? opener closer reading offset body := by
  obtain ⟨⟨comment, rest⟩, hsplit⟩ := Option.ne_none_iff_exists'.mp hbody
  simp only [commentTag?, hsplit, splitClose_append_of_some hsplit, Option.bind_eq_bind, Option.bind_some]

/-- A comment that does not end makes no tag. -/
theorem commentTag?_eq_none (hbody : splitClose body = none) :
    commentTag? opener closer reading offset body = none := by
  simp only [commentTag?, hbody, Option.bind_eq_bind, Option.bind_none]

/-- A comment that does not end on its line makes a tag that goes on behind the newline, if any. -/
theorem lt_stop_of_commentTag? (hbody : splitClose body = none) {more : Text}
    (h : commentTag? opener closer reading offset (body ++ '\n' :: more) = some tag) :
    offset + size opener + size body < tag.span.stop := by
  obtain ⟨content, after, hwhole, hclose, rfl⟩ := commentTag?_eq_some_iff.mp h
  have hsplit := splitClose_append after hclose
  rw [← hwhole] at hsplit
  have hlt := size_lt_of_splitClose hbody hsplit
  simp only [size_append] at hlt ⊢
  omega

/-- A comment further back makes the same tag further back. -/
theorem commentTag?_shift (distance : Nat) : commentTag? opener closer reading (offset + distance) body =
    (commentTag? opener closer reading offset body).map (shift distance) := by
  cases hclose : splitClose body with
  | none => rw [commentTag?_eq_none hclose, commentTag?_eq_none hclose, Option.map_none]
  | some parts =>
    cases hcontent : dropLastWord? closer parts.1 with
    | none => simp [commentTag?, hclose, hcontent]
    | some content => simp [commentTag?, hclose, hcontent, shift, Nat.add_right_comm]

end

theorem splitClose_bracket_eq_none (body : Text) : splitClose ('[' :: body) = none ↔ splitClose body = none := by
  rw [splitClose]
  · simp
  · simp

/-- What a step completes with more lines behind it, it completes alone, or it is a tag that goes on behind the
newline. -/
theorem ofStep?_append_newline {text : Text} (h : text ≠ []) (offset : Nat) (more : Text) :
    ofStep? offset (Lexeme.read (text ++ '\n' :: more)) = ofStep? offset (Lexeme.read text) ∨
      ofStep? offset (Lexeme.read text) = none ∧ ∀ tag,
        ofStep? offset (Lexeme.read (text ++ '\n' :: more)) = some tag → offset + size text < tag.span.stop := by
  have hsize := congrArg size (Lexeme.used_append_rest text)
  rw [size_append] at hsize
  rw [Lexeme.read_append_newline h]
  have hcovers := @Lexeme.read_covers text
  generalize Lexeme.read text = step at hsize hcovers ⊢
  obtain ⟨lexeme, used, rest⟩ := step
  simp only [Lexeme.Step.extend, ofStep?, bracketTag?_eq, literalTag?_eq] at hsize hcovers ⊢
  rcases lexeme with _ | lexeme
  · exact .inl rfl
  cases lexeme with
  | inclusion name => exact .inl rfl
  | tagOpen =>
    obtain ⟨rfl, -⟩ := hcovers rfl
    by_cases hbody : splitClose rest = none
    · refine .inr ⟨commentTag?_eq_none hbody, fun tag htag => ?_⟩
      have hlt := lt_stop_of_commentTag? hbody htag
      omega
    · exact .inl (commentTag?_append hbody _)
  | literalOpen =>
    obtain rfl : used = literalOpen := hcovers rfl
    have hopen := splitClose_bracket_eq_none rest
    by_cases hbody : splitClose rest = none
    · have hbracket := hopen.mpr hbody
      refine .inr ⟨by rw [commentTag?_eq_none hbody, commentTag?_eq_none hbracket]; rfl, fun tag htag => ?_⟩
      rw [Option.orElse_eq_orElse, Option.orElse_eq_or, Option.or_eq_some_iff] at htag
      rcases htag with hliteral | ⟨-, hfallback⟩
      · have hlt := lt_stop_of_commentTag? hbody hliteral
        omega
      · have hlt := lt_stop_of_commentTag? hbracket hfallback
        have hopeners : size bracketOpen + size ('[' :: rest) = size literalOpen + size rest := by
          rw [← size_append, ← size_append]
          rfl
        omega
    · left
      rw [commentTag?_append hbody, ← List.cons_append, commentTag?_append (hopen.not.mpr hbody)]

theorem inclusionTag?_shift (offset length distance : Nat) (name : Text) :
    inclusionTag? ⟨offset + distance, offset + distance + length⟩ name =
      (inclusionTag? ⟨offset, offset + length⟩ name).map (shift distance) := by
  simp [inclusionTag?, shift, Function.comp_def, Nat.add_right_comm]

/-- A step further back completes the same tag further back. -/
theorem ofStep?_shift (offset distance : Nat) (step : Lexeme.Step) :
    ofStep? (offset + distance) step = (ofStep? offset step).map (shift distance) := by
  simp only [ofStep?, bracketTag?_eq, literalTag?_eq, commentTag?_shift]
  split
  · rfl
  · cases commentTag? literalOpen literalEnd (fun _ => .literal) offset step.rest <;> rfl
  · rfl
  · exact inclusionTag?_shift offset (size step.used) distance _

end Tag

/-! ## The whole scan -/

variable {offset resume : Nat} {text left right : Text} {tag : Tag}

/-- Where a step completes a tag, the scan goes on behind the step and resumes behind the tag. -/
theorem scanFrom_of_found
    (h : (if resume ≤ offset then Tag.ofStep? offset (Lexeme.read text) else none) = some tag) :
    scanFrom offset resume text =
      tag :: scanFrom (offset + size (Lexeme.read text).used) tag.span.stop (Lexeme.read text).rest := by
  cases text with
  | nil => simp [Lexeme.read, Tag.ofStep?] at h
  | cons c rest =>
    rw [scanFrom]
    simp only [h]

/-- Where a step completes no tag, the scan goes on behind the step. -/
theorem scanFrom_of_none
    (h : (if resume ≤ offset then Tag.ofStep? offset (Lexeme.read text) else none) = none) :
    scanFrom offset resume text =
      scanFrom (offset + size (Lexeme.read text).used) resume (Lexeme.read text).rest := by
  cases text with
  | nil => simp [Lexeme.read, scanFrom]
  | cons c rest =>
    rw [scanFrom]
    simp only [h]

/-- A scan does not depend on where it resumes, unless that is behind its start. -/
theorem scanFrom_congr_resume {resume' : Nat} (h : resume ≤ offset) (h' : resume' ≤ offset) :
    scanFrom offset resume text = scanFrom offset resume' text := by
  fun_induction scanFrom offset resume text with
  | case1 => rw [scanFrom]
  | case2 offset resume c rest step tag hfound ih =>
    rw [dif_pos h] at hfound
    exact (scanFrom_of_found (by rw [if_pos h', hfound])).symm
  | case3 offset resume c rest step hnone ih =>
    rw [dif_pos h] at hnone
    rw [ih (by omega) (by omega)]
    exact (scanFrom_of_none (by rw [if_pos h', hnone])).symm

/-- A scan further back finds the same tags further back. -/
theorem scanFrom_shift (offset resume distance : Nat) (text : Text) :
    scanFrom (offset + distance) (resume + distance) text =
      (scanFrom offset resume text).map (Tag.shift distance) := by
  have hfound : ∀ offset resume step,
      (if resume + distance ≤ offset + distance then Tag.ofStep? (offset + distance) step else none) =
        (if resume ≤ offset then Tag.ofStep? offset step else none).map (Tag.shift distance) := by
    intro offset resume step
    simp only [Nat.add_le_add_iff_right, Tag.ofStep?_shift]
    split <;> rfl
  fun_induction scanFrom offset resume text with
  | case1 => rw [scanFrom, List.map_nil]
  | case2 offset resume c rest step tag htag ih =>
    rw [dite_eq_ite] at htag
    rw [scanFrom_of_found ((hfound offset resume step).trans (by rw [htag, Option.map_some])), List.map_cons, ← ih,
      Nat.add_right_comm]
    rfl
  | case3 offset resume c rest step hnone ih =>
    rw [dite_eq_ite] at hnone
    rw [scanFrom_of_none ((hfound offset resume step).trans (by rw [hnone, Option.map_none])), ← ih,
      Nat.add_right_comm]

/-- A step completes the same with more lines behind it, where no tag lies across the newline. -/
theorem found_append_newline (hleft : left ≠ [])
    (h : ∀ tag ∈ scanFrom offset resume (left ++ '\n' :: right),
      ¬ (tag.span.start ≤ offset + size left ∧ offset + size left < tag.span.stop)) :
    (if resume ≤ offset then Tag.ofStep? offset (Lexeme.read (left ++ '\n' :: right)) else none) =
      if resume ≤ offset then Tag.ofStep? offset (Lexeme.read left) else none := by
  split
  · rename_i hle
    rcases Tag.ofStep?_append_newline hleft offset right with heq | ⟨hnone, hlong⟩
    · exact heq
    · rw [hnone]
      refine Option.eq_none_iff_forall_ne_some.mpr fun tag htag => ?_
      have hfound : (if resume ≤ offset then Tag.ofStep? offset (Lexeme.read (left ++ '\n' :: right)) else none) =
          some tag := by rw [if_pos hle, htag]
      obtain ⟨-, body, after, -, -, hspan, -⟩ := spelling_of_found hfound
      refine h tag ?_ ⟨?_, hlong tag htag⟩
      · rw [scanFrom_of_found hfound]
        exact List.mem_cons_self
      · rw [hspan]
        exact Nat.le_add_right _ _
  · rfl

/-- A scan over a newline is a scan up to it and a scan behind it, where no tag lies across the newline. -/
theorem scanFrom_append_newline (hresume : resume ≤ offset + size left)
    (h : ∀ tag ∈ scanFrom offset resume (left ++ '\n' :: right),
      ¬ (tag.span.start ≤ offset + size left ∧ offset + size left < tag.span.stop)) :
    scanFrom offset resume (left ++ '\n' :: right) =
      scanFrom offset resume left ++ scanFrom (offset + size left + 1) (offset + size left + 1) right := by
  fun_induction scanFrom offset resume left with
  | case1 offset resume =>
    have hread : Lexeme.read ('\n' :: right) = ⟨none, ['\n'], right⟩ := rfl
    rw [List.nil_append, scanFrom_of_none (by rw [hread]; exact ite_self none), hread]
    exact scanFrom_congr_resume (Nat.le_succ_of_le hresume) (Nat.le_refl _)
  | case2 offset resume c rest step tag hfound ih =>
    rw [dite_eq_ite] at hfound
    have hjoint := (found_append_newline (List.cons_ne_nil c rest) h).trans hfound
    have hread := Lexeme.read_append_newline (List.cons_ne_nil c rest) right
    have hend : offset + size step.used + size step.rest = offset + size (c :: rest) := by
      rw [Nat.add_assoc, ← size_append, Lexeme.used_append_rest]
    obtain ⟨-, body, after, hbody, -, hspan, -⟩ := spelling_of_found hfound
    have hstop : tag.span.stop ≤ offset + size (c :: rest) := by
      rw [hspan, hbody, size_append]
      exact Nat.add_le_add_left (Nat.le_add_right _ _) _
    rw [scanFrom_of_found hjoint, hread] at h ⊢
    rw [hend] at ih
    rw [List.cons_append, ← ih hstop fun later hlater => h later (List.mem_cons_of_mem _ hlater)]
    rfl
  | case3 offset resume c rest step hnone ih =>
    rw [dite_eq_ite] at hnone
    have hjoint := (found_append_newline (List.cons_ne_nil c rest) h).trans hnone
    have hread := Lexeme.read_append_newline (List.cons_ne_nil c rest) right
    have hend : offset + size step.used + size step.rest = offset + size (c :: rest) := by
      rw [Nat.add_assoc, ← size_append, Lexeme.used_append_rest]
    rw [scanFrom_of_none hjoint, hread] at h ⊢
    rw [hend] at ih
    exact ih hresume h

/-- Scanning is local at line breaks.

Where no tag of a text covers one of its newlines, the tags of the text are those of the part before the newline
and, moved behind it, those of the part behind the newline. -/
theorem scanTags_append_newline {left right : Text} (h : ∀ tag ∈ scanTags (left ++ '\n' :: right),
      ¬ (tag.span.start ≤ size left ∧ size left < tag.span.stop)) :
    scanTags (left ++ '\n' :: right) = scanTags left ++ (scanTags right).map (Tag.shift (size left + 1)) := by
  have hshift := scanFrom_shift 0 0 (size left + 1) right
  rw [Nat.zero_add] at hshift
  rw [scanTags, scanTags, scanTags, ← hshift, scanFrom_append_newline (Nat.zero_le _) (by simpa [scanTags] using h),
    Nat.zero_add]

/-- A line with a tag, with an opener that no comment end follows on the line, and with an inclusion that is not
closed. -/
def unfinishedLine : Text := "/*[export]*/ /*[é #include <a".toList

/-- Lines that end the comment of the line before without a bracket, and have tags of their own. -/
def nextLines : Text := ">*/ /*[[\n]]*/\n#include <b.h>".toList

theorem scanTags_append_newline_unfinishedLine :
    (∀ tag ∈ scanTags (unfinishedLine ++ '\n' :: nextLines),
      ¬ (tag.span.start ≤ size unfinishedLine ∧ size unfinishedLine < tag.span.stop)) ∧
    (scanTags (unfinishedLine ++ '\n' :: nextLines)).map Tag.span = [⟨0, 12⟩, ⟨35, 44⟩, ⟨45, 59⟩] ∧
    scanTags (unfinishedLine ++ '\n' :: nextLines) =
      scanTags unfinishedLine ++ (scanTags nextLines).map (Tag.shift (size unfinishedLine + 1)) := by
  have hapart : ∀ tag ∈ scanTags (unfinishedLine ++ '\n' :: nextLines),
      ¬ (tag.span.start ≤ size unfinishedLine ∧ size unfinishedLine < tag.span.stop) := by decide +kernel
  exact ⟨hapart, by decide +kernel, scanTags_append_newline hapart⟩

end TaggedHeader
