import Mathlib.Data.List.TakeWhile
import TaggedHeader.Proofs.Text.Selection
import TaggedHeader.Text.Blank

/-!
# Words and blanks

A word has characters, and none of them is a blank. Words joined by single blanks can be taken apart again,
and trimming changes nothing in a text that starts and ends with a visible character. Where a text is trimmed
or falls into words, blanks are all that is lost.
-/

namespace TaggedHeader.Text

/-- A text that is one word. -/
structure IsWord (word : Text) : Prop where
  nonempty : word ≠ []
  visible : ∀ c ∈ word, isBlank c = false

/-- A text that starts and ends with a character that is no blank. -/
structure IsTrimmed (text : Text) : Prop where
  head : text.head?.any (!isBlank ·) = true
  last : text.getLast?.any (!isBlank ·) = true

theorem trimStart_eq_self {text : Text} (h : text.head?.any (!isBlank ·) = true) : trimStart text = text := by
  cases text with
  | nil => rfl
  | cons c rest =>
    rw [List.head?_cons, Option.any_some, Bool.not_eq_true'] at h
    exact List.dropWhile_cons_of_neg (Bool.eq_false_iff.mp h)

theorem trimEnd_eq_self {text : Text} (h : text.getLast?.any (!isBlank ·) = true) : trimEnd text = text := by
  rw [← List.head?_reverse] at h
  rw [trimEnd, ← trimStart, trimStart_eq_self h, List.reverse_reverse]

theorem IsTrimmed.trim_eq {text : Text} (h : IsTrimmed text) : trim text = text := by
  rw [trim, trimStart_eq_self h.head, trimEnd_eq_self h.last]

/-- What stands between two texts does not change how the whole starts and ends. -/
theorem IsTrimmed.append {left right : Text} (hleft : IsTrimmed left) (hright : IsTrimmed right)
    (middle : Text) : IsTrimmed (left ++ middle ++ right) := by
  obtain ⟨first, hfirst, hfirstVisible⟩ := (Option.any_eq_true ..).mp hleft.head
  obtain ⟨last, hlast, hlastVisible⟩ := (Option.any_eq_true ..).mp hright.last
  constructor
  · rw [List.append_assoc, List.head?_append, hfirst]
    exact hfirstVisible
  · rw [List.getLast?_append, hlast]
    exact hlastVisible

/-! ## Blanks at the ends -/

/-- A text of blanks alone, possibly empty. -/
def Blanks (text : Text) : Prop := ∀ c ∈ text, isBlank c = true

theorem blanks_nil : Blanks [] := fun _ hc => absurd hc List.not_mem_nil

theorem Blanks.append {left right : Text} (hleft : Blanks left) (hright : Blanks right) :
    Blanks (left ++ right) := fun c hc =>
  (List.mem_append.mp hc).elim (hleft c) (hright c)

/-- Blanks between two words, at least one. -/
structure IsGap (gap : Text) : Prop where
  blanks : Blanks gap
  nonempty : gap ≠ []

/-- What follows a gap is no part of the word before it. -/
theorem IsGap.head?_append {gap : Text} (h : IsGap gap) (rest : Text) : (gap ++ rest).head?.all isBlank = true := by
  obtain ⟨c, tail, rfl⟩ := List.exists_cons_of_ne_nil h.nonempty
  exact h.blanks c List.mem_cons_self

/-- Leading blanks are trimmed off a text that starts with a visible character. -/
theorem trimStart_append {gap text : Text} (hgap : Blanks gap) (htext : text.head?.any (!isBlank ·) = true) :
    trimStart (gap ++ text) = text := by
  rw [trimStart, List.dropWhile_append_of_pos hgap, ← trimStart, trimStart_eq_self htext]

theorem trimEnd_append {text gap : Text} (htext : text.getLast?.any (!isBlank ·) = true) (hgap : Blanks gap) :
    trimEnd (text ++ gap) = text := by
  have hreversed : Blanks gap.reverse := fun c hc => hgap c (List.mem_reverse.mp hc)
  rw [← List.head?_reverse] at htext
  rw [trimEnd, List.reverse_append, ← trimStart, trimStart_append hreversed htext, List.reverse_reverse]

theorem IsTrimmed.trim_append {text lead trail : Text} (h : IsTrimmed text) (hlead : Blanks lead) (htrail : Blanks trail) :
    trim (lead ++ text ++ trail) = text := by
  have hhead : (text ++ trail).head?.any (!isBlank ·) = true := by
    obtain ⟨c, hc, hvisible⟩ := (Option.any_eq_true ..).mp h.head
    rw [List.head?_append, hc]
    exact hvisible
  rw [trim, List.append_assoc, trimStart_append hlead hhead, trimEnd_append h.last htrail]

theorem exists_trimStart (text : Text) : ∃ lead, Blanks lead ∧ text = lead ++ trimStart text :=
  ⟨text.takeWhile isBlank, fun _ hc => List.mem_takeWhile_imp hc, List.takeWhile_append_dropWhile.symm⟩

theorem exists_trimEnd (text : Text) : ∃ trail, Blanks trail ∧ text = trimEnd text ++ trail := by
  obtain ⟨lead, hlead, htext⟩ := exists_trimStart text.reverse
  refine ⟨lead.reverse, fun c hc => hlead c (List.mem_reverse.mp hc), ?_⟩
  rw [trimEnd, ← trimStart, ← List.reverse_append, ← htext, List.reverse_reverse]

theorem exists_trim (text : Text) :
    ∃ lead trail, Blanks lead ∧ Blanks trail ∧ text = lead ++ trim text ++ trail := by
  obtain ⟨lead, hlead, htext⟩ := exists_trimStart text
  obtain ⟨trail, htrail, hrest⟩ := exists_trimEnd (trimStart text)
  exact ⟨lead, trail, hlead, htrail, by rw [trim, List.append_assoc, ← hrest, ← htext]⟩

/-! ## Falling into words, one character at a time -/

theorem words_cons (c : Char) (rest : Text) : words (c :: rest) =
    if isBlank c then words rest
    else match rest, words rest with
      | d :: _, word :: more => if isBlank d then [c] :: word :: more else (c :: word) :: more
      | _, more => [c] :: more := rfl

theorem words_cons_blank {c : Char} (hc : isBlank c = true) (rest : Text) :
    words (c :: rest) = words rest := by
  rw [words_cons, if_pos hc]

/-- The last character of a word. -/
theorem words_cons_last {c : Char} (hc : isBlank c = false) {rest : Text}
    (hrest : rest.head?.all isBlank = true) : words (c :: rest) = [c] :: words rest := by
  rw [words_cons, if_neg (Bool.eq_false_iff.mp hc)]
  cases rest with
  | nil => rfl
  | cons d rest =>
    rw [List.head?_cons, Option.all_some] at hrest
    cases words (d :: rest) with
    | nil => rfl
    | cons word more => exact if_pos hrest

/-- A character before the last one of a word. -/
theorem words_cons_inner {c d : Char} (hc : isBlank c = false) (hd : isBlank d = false) {rest word : Text}
    {more : List Text} (hrest : words (d :: rest) = word :: more) :
    words (c :: d :: rest) = (c :: word) :: more := by
  rw [words_cons, if_neg (Bool.eq_false_iff.mp hc), hrest]
  exact if_neg (Bool.eq_false_iff.mp hd)

namespace IsWord

variable {word : Text}

theorem isTrimmed (h : IsWord word) : IsTrimmed word := by
  constructor
  · rw [List.head?_eq_some_head h.nonempty, Option.any_some, h.visible _ (List.head_mem _)]
    rfl
  · rw [List.getLast?_eq_some_getLast h.nonempty, Option.any_some, h.visible _ (List.getLast_mem _)]
    rfl

/-- A word in front of a blank, or at the end of a text, is its first word. -/
theorem words_append (h : IsWord word) {rest : Text} (hrest : rest.head?.all isBlank = true) :
    words (word ++ rest) = word :: words rest := by
  obtain ⟨hnonempty, hvisible⟩ := h
  induction word with
  | nil => exact absurd rfl hnonempty
  | cons c word ih =>
    obtain ⟨hc, hvisible⟩ := List.forall_mem_cons.mp hvisible
    cases word with
    | nil => exact words_cons_last hc hrest
    | cons d word =>
      exact words_cons_inner hc (hvisible d List.mem_cons_self) (ih (List.cons_ne_nil _ _) hvisible)

end IsWord

/-! ## Words between blanks -/

theorem words_append_blanks {gap : Text} (hgap : Blanks gap) (rest : Text) : words (gap ++ rest) = words rest := by
  induction gap with
  | nil => rfl
  | cons c gap ih =>
    obtain ⟨hc, hgap⟩ := List.forall_mem_cons.mp hgap
    rw [List.cons_append, words_cons_blank hc, ih hgap]

/-- A text is blank, or a first word stands behind blanks and in front of a blank or the end. -/
theorem blanks_or_exists_word (text : Text) : Blanks text ∨ ∃ lead word rest, text = lead ++ (word ++ rest) ∧
    Blanks lead ∧ IsWord word ∧ rest.head?.all isBlank = true := by
  obtain ⟨lead, hlead, htext⟩ := exists_trimStart text
  have hvisible := List.head?_dropWhile_not isBlank text
  rw [← trimStart] at hvisible
  generalize trimStart text = body at htext hvisible
  cases body with
  | nil =>
    rw [List.append_nil] at htext
    exact .inl (htext ▸ hlead)
  | cons c tail =>
    have hc : (!isBlank c) = true := by simpa using hvisible
    refine .inr ⟨lead, c :: tail.takeWhile (!isBlank ·), tail.dropWhile (!isBlank ·), ?_, hlead,
      ⟨List.cons_ne_nil _ _, List.forall_mem_cons.mpr ⟨by simpa using hc, fun d hd => ?_⟩⟩, ?_⟩
    · rw [htext, List.cons_append, List.takeWhile_append_dropWhile]
    · simpa using List.mem_takeWhile_imp hd
    · have hbehind := List.head?_dropWhile_not (!isBlank ·) tail
      cases htail : tail.dropWhile (!isBlank ·) with
      | nil => rfl
      | cons d rest => simpa [htail] using hbehind

/-- A text without words is blank. -/
theorem blanks_of_words {text : Text} (h : words text = []) : Blanks text := by
  rcases blanks_or_exists_word text with hblank | ⟨lead, word, rest, rfl, hlead, hword, hrest⟩
  · exact hblank
  · rw [words_append_blanks hlead, hword.words_append hrest] at h
    cases h

/-- The first word of a text stands behind blanks and in front of the other words. -/
theorem exists_of_words {text part : Text} {parts : List Text} (h : words text = part :: parts) :
    ∃ lead rest, text = lead ++ (part ++ rest) ∧ Blanks lead ∧ IsWord part ∧
      rest.head?.all isBlank = true ∧ words rest = parts := by
  rcases blanks_or_exists_word text with hblank | ⟨lead, word, rest, rfl, hlead, hword, hrest⟩
  · rw [← List.append_nil text, words_append_blanks hblank] at h
    cases h
  · rw [words_append_blanks hlead, hword.words_append hrest] at h
    obtain ⟨rfl, rfl⟩ := List.cons.inj h
    exact ⟨lead, rest, rfl, hlead, hword, hrest, rfl⟩

/-- The next word stands behind at least one blank. -/
theorem exists_of_words_behind {text part : Text} {parts : List Text} (hhead : text.head?.all isBlank = true)
    (h : words text = part :: parts) : ∃ gap rest, text = gap ++ (part ++ rest) ∧ IsGap gap ∧
      rest.head?.all isBlank = true ∧ words rest = parts := by
  obtain ⟨gap, rest, rfl, hgap, hpart, hrest⟩ := exists_of_words h
  refine ⟨gap, rest, rfl, ⟨hgap, ?_⟩, hrest⟩
  rintro rfl
  obtain ⟨c, part, rfl⟩ := List.exists_cons_of_ne_nil hpart.nonempty
  have hvisible := hpart.visible c List.mem_cons_self
  rw [show isBlank c = true from hhead] at hvisible
  cases hvisible

/-- Words with gaps between them. -/
inductive Spaced : List Text → Text → Prop
  | last (word : Text) : Spaced [word] word
  | cons {word next gap rest : Text} {parts : List Text} (hgap : IsGap gap) (hrest : Spaced (next :: parts) rest) :
    Spaced (word :: next :: parts) (word ++ (gap ++ rest))

/-- Words with gaps between them are the words of the whole. -/
theorem Spaced.words_eq {parts : List Text} {text : Text} (h : Spaced parts text)
    (hparts : ∀ part ∈ parts, IsWord part) : words text = parts := by
  induction h with
  | last word =>
    have hword : words (word ++ []) = [word] := (hparts word List.mem_cons_self).words_append rfl
    rwa [List.append_nil] at hword
  | cons hgap hrest ih =>
    obtain ⟨hword, hparts⟩ := List.forall_mem_cons.mp hparts
    rw [hword.words_append (hgap.head?_append _), words_append_blanks hgap.blanks, ih hparts]

/-- Behind the first word, the others follow with gaps between them. -/
theorem exists_spaced (word : Text) {text : Text} {parts : List Text} (hhead : text.head?.all isBlank = true)
    (h : words text = parts) :
    ∃ core trail, word ++ text = core ++ trail ∧ Blanks trail ∧ Spaced (word :: parts) core := by
  induction parts generalizing word text with
  | nil => exact ⟨word, text, rfl, blanks_of_words h, .last word⟩
  | cons next parts ih =>
    obtain ⟨gap, rest, rfl, hgap, hrest, hwords⟩ := exists_of_words_behind hhead h
    obtain ⟨core, trail, hcore, htrail, hspaced⟩ := ih next hrest hwords
    exact ⟨word ++ (gap ++ core), trail, by rw [hcore]; simp, htrail, .cons hgap hspaced⟩

/-- A text that falls into words consists of them, with gaps between them and blanks around them. -/
theorem exists_spaced_of_words {text : Text} {parts : List Text} (h : words text = parts) (hne : parts ≠ []) :
    ∃ lead core trail, text = lead ++ (core ++ trail) ∧ Blanks lead ∧ Blanks trail ∧ Spaced parts core := by
  obtain ⟨word, parts, rfl⟩ := List.exists_cons_of_ne_nil hne
  obtain ⟨lead, rest, rfl, hlead, -, hrest, hwords⟩ := exists_of_words h
  obtain ⟨core, trail, hcore, htrail, hspaced⟩ := exists_spaced word hrest hwords
  exact ⟨lead, core, trail, by rw [hcore], hlead, htrail, hspaced⟩

end TaggedHeader.Text
