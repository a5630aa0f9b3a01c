import TaggedHeader.Prompt
import TaggedHeader.Proofs.Tag.Spelling
import TaggedHeader.Proofs.Text.Words

/-!
# Where a pattern fits

A pattern is matched character by character, with runs that are given back step by step. Whatever the runs
take, what is left is an end of the text, so the place found is a range between characters, and what is taken falls
into parts that the pieces of the pattern describe. Of blanks at the borders of a pattern none is left over: at the
front a place with one more blank would have been found before, and at the end a run gives nothing back.
-/

namespace TaggedHeader

open Text

namespace Pattern

variable {pattern front more : Pattern} {text rest : Text}

/-! ## What is taken and what is left -/

/-- A run takes characters of its class, as many as it has to at least, and what follows continues behind them. -/
theorem exists_part_of_afterRun {α : Type} {isMember : Char → Bool} {least taken : Nat}
    {continue? : Text → Option α} {result : α}
    (h : afterRun isMember least continue? taken text = some result) :
    ∃ part rest, text = part ++ rest ∧ (∀ c ∈ part, isMember c = true) ∧ least ≤ taken + part.length ∧
      continue? rest = some result := by
  induction text generalizing taken with
  | nil =>
    unfold afterRun at h
    split at h
    · rename_i hleast
      exact ⟨[], [], rfl, by simp, hleast, h⟩
    · cases h
  | cons c tail ih =>
    unfold afterRun at h
    simp only at h
    split at h
    · rename_i longer hlonger
      split at hlonger
      · rename_i hc
        obtain ⟨part, rest, rfl, hpart, hleast, hcontinue⟩ := ih (hlonger.trans h)
        refine ⟨c :: part, rest, rfl, List.forall_mem_cons.mpr ⟨hc, hpart⟩, ?_, hcontinue⟩
        rw [List.length_cons]
        omega
      · cases hlonger
    · split at h
      · rename_i hleast
        exact ⟨[], c :: tail, rfl, by simp, hleast, h⟩
      · cases h

/-- What follows a run continues at an end of the text. -/
theorem exists_suffix_of_afterRun {α : Type} {isMember : Char → Bool} {least taken : Nat}
    {continue? : Text → Option α} {result : α}
    (h : afterRun isMember least continue? taken text = some result) :
    ∃ rest, rest <:+ text ∧ continue? rest = some result := by
  obtain ⟨part, rest, rfl, -, -, hcontinue⟩ := exists_part_of_afterRun h
  exact ⟨rest, List.suffix_append part rest, hcontinue⟩

/-- What a pattern leaves of a text is an end of it. -/
theorem suffix_of_rest? (h : rest? pattern text = some rest) : rest <:+ text := by
  induction pattern generalizing text with
  | nil =>
    cases h
    exact List.suffix_refl _
  | cons piece more ih =>
    cases piece with
    | word word =>
      obtain ⟨tail, htail, hmore⟩ := Option.bind_eq_some_iff.mp h
      obtain ⟨left, hleft⟩ := ih hmore
      exact ⟨word ++ left, by rw [eq_append_of_dropWord? htail, List.append_assoc, hleft]⟩
    | blanks =>
      obtain ⟨tail, htail, hmore⟩ := exists_suffix_of_afterRun h
      exact (ih hmore).trans htail
    | name =>
      obtain ⟨tail, htail, hmore⟩ := exists_suffix_of_afterRun h
      exact (ih hmore).trans htail

/-- A place where a pattern fits takes the text apart. -/
theorem eq_append_of_find? {before found : Text} (h : find? pattern text = some (before, found, rest)) :
    text = before ++ found ++ rest := by
  induction text generalizing before with
  | nil =>
    obtain ⟨left, -, heq⟩ := Option.map_eq_some_iff.mp h
    cases heq
    rfl
  | cons c tail ih =>
    rw [find?] at h
    split at h
    · rename_i left hleft
      cases h
      exact (List.suffix_iff_eq_append.mp (suffix_of_rest? hleft)).symm
    · obtain ⟨⟨before', found', rest'⟩, hfind, heq⟩ := Option.map_eq_some_iff.mp h
      cases heq
      rw [ih hfind]
      rfl

/-- What a pattern leaves of a text is left where it is found. -/
theorem rest?_of_find? {before found : Text} (h : find? pattern text = some (before, found, rest)) :
    rest? pattern (found ++ rest) = some rest := by
  induction text generalizing before with
  | nil =>
    obtain ⟨left, hleft, heq⟩ := Option.map_eq_some_iff.mp h
    cases heq
    rw [List.append_nil, hleft, List.suffix_nil.mp (suffix_of_rest? hleft)]
  | cons c tail ih =>
    have htext := eq_append_of_find? h
    rw [find?] at h
    split at h
    · rename_i left hleft
      cases h
      rw [List.nil_append] at htext
      rwa [← htext]
    · obtain ⟨⟨before', found', rest'⟩, hfind, heq⟩ := Option.map_eq_some_iff.mp h
      cases heq
      exact ih hfind

/-- A text that a pattern fits has the words of the pattern in it. -/
theorem infix_of_rest? {word : Text} (h : rest? pattern text = some rest) (hword : Piece.word word ∈ pattern) :
    word <:+: text := by
  induction pattern generalizing text with
  | nil => cases hword
  | cons piece more ih =>
    cases piece with
    | word first =>
      obtain ⟨tail, htail, hmore⟩ := Option.bind_eq_some_iff.mp h
      rw [eq_append_of_dropWord? htail]
      rcases List.mem_cons.mp hword with heq | hlater
      · cases heq
        exact (List.prefix_append word tail).isInfix
      · exact (ih hmore hlater).trans (List.suffix_append first tail).isInfix
    | blanks =>
      obtain ⟨tail, htail, hmore⟩ := exists_suffix_of_afterRun h
      exact (ih hmore (List.mem_of_ne_of_mem Piece.noConfusion hword)).trans htail.isInfix
    | name =>
      obtain ⟨tail, htail, hmore⟩ := exists_suffix_of_afterRun h
      exact (ih hmore (List.mem_of_ne_of_mem Piece.noConfusion hword)).trans htail.isInfix

/-- How many characters the words of a pattern have. -/
def wordLength : Pattern → Nat
  | [] => 0
  | .word word :: more => word.length + wordLength more
  | .blanks :: more | .name :: more => wordLength more

/-- A pattern takes no fewer characters than its words have. -/
theorem length_add_wordLength_le (h : rest? pattern text = some rest) :
    rest.length + pattern.wordLength ≤ text.length := by
  induction pattern generalizing text with
  | nil =>
    cases h
    exact Nat.le_refl _
  | cons piece more ih =>
    cases piece with
    | word word =>
      obtain ⟨tail, htail, hmore⟩ := Option.bind_eq_some_iff.mp h
      have hle := ih hmore
      rw [eq_append_of_dropWord? htail, List.length_append, wordLength]
      omega
    | blanks =>
      obtain ⟨tail, htail, hmore⟩ := exists_suffix_of_afterRun h
      exact (ih hmore).trans htail.length_le
    | name =>
      obtain ⟨tail, htail, hmore⟩ := exists_suffix_of_afterRun h
      exact (ih hmore).trans htail.length_le

/-- A pattern with a word is found as a text of its own. -/
theorem found_ne_nil {before found : Text} (h : find? pattern text = some (before, found, rest))
    (hpattern : 0 < pattern.wordLength) : found ≠ [] := by
  rintro rfl
  have hle := length_add_wordLength_le (rest?_of_find? h)
  rw [List.nil_append] at hle
  omega

/-! ## Texts that fit -/

/-- Whether a text is what a piece of a pattern describes. -/
def Piece.Fits : Piece → Text → Prop
  | .word fixed, text => text = fixed
  | .blanks, text => Blanks text
  | .name, text => text ≠ [] ∧ ∀ c ∈ text, isNameChar c = true

/-- Whether a text falls into parts that the pieces of a pattern describe one after another. -/
def Fits : Pattern → Text → Prop
  | [], text => text = []
  | piece :: more, text => ∃ part rest, piece.Fits part ∧ Fits more rest ∧ text = part ++ rest

/-- A text that two patterns fit one after the other falls into a text for each. -/
theorem exists_of_fits_append (h : Fits (front ++ more) text) :
    ∃ part rest, Fits front part ∧ Fits more rest ∧ text = part ++ rest := by
  induction front generalizing text with
  | nil => exact ⟨[], text, rfl, h, rfl⟩
  | cons piece front ih =>
    obtain ⟨part, rest, hpart, hrest, rfl⟩ := h
    obtain ⟨inner, last, hinner, hlast, rfl⟩ := ih hrest
    exact ⟨part ++ inner, last, ⟨part, inner, hpart, hinner, rfl⟩, hlast, (List.append_assoc part inner last).symm⟩

/-- What a pattern takes of a text fits the pattern. -/
theorem exists_fits_of_rest? (h : rest? pattern text = some rest) :
    ∃ found, Fits pattern found ∧ text = found ++ rest := by
  induction pattern generalizing text with
  | nil =>
    cases h
    exact ⟨[], rfl, rfl⟩
  | cons piece more ih =>
    cases piece with
    | word word =>
      obtain ⟨tail, htail, hmore⟩ := Option.bind_eq_some_iff.mp h
      obtain ⟨found, hfound, rfl⟩ := ih hmore
      exact ⟨word ++ found, ⟨word, found, rfl, hfound, rfl⟩,
        (eq_append_of_dropWord? htail).trans (List.append_assoc word found rest).symm⟩
    | blanks =>
      obtain ⟨part, tail, rfl, hpart, -, hmore⟩ := exists_part_of_afterRun h
      obtain ⟨found, hfound, rfl⟩ := ih hmore
      exact ⟨part ++ found, ⟨part, found, hpart, hfound, rfl⟩, (List.append_assoc part found rest).symm⟩
    | name =>
      obtain ⟨part, tail, rfl, hpart, hleast, hmore⟩ := exists_part_of_afterRun h
      obtain ⟨found, hfound, rfl⟩ := ih hmore
      have hnonempty : part ≠ [] := List.length_pos_iff.mp (by omega)
      exact ⟨part ++ found, ⟨part, found, ⟨hnonempty, hpart⟩, hfound, rfl⟩, (List.append_assoc part found rest).symm⟩

/-- The text that is found fits the pattern. -/
theorem fits_of_find? {before found : Text} (h : find? pattern text = some (before, found, rest)) :
    Fits pattern found := by
  obtain ⟨taken, htaken, hsame⟩ := exists_fits_of_rest? (rest?_of_find? h)
  rwa [List.append_cancel_right hsame]

/-! ## Blanks at the borders -/

/-- The pattern does not fit at any place before the one that is found. -/
theorem rest?_eq_none_of_find? {before found lead gap : Text} (h : find? pattern text = some (before, found, rest))
    (hbefore : before = lead ++ gap) (hgap : gap ≠ []) : rest? pattern (gap ++ (found ++ rest)) = none := by
  induction text generalizing before lead with
  | nil =>
    obtain ⟨left, -, heq⟩ := Option.map_eq_some_iff.mp h
    cases heq
    exact absurd (List.append_eq_nil_iff.mp hbefore.symm).2 hgap
  | cons c tail ih =>
    have htext := eq_append_of_find? h
    rw [find?] at h
    split at h
    · cases h
      exact absurd (List.append_eq_nil_iff.mp hbefore.symm).2 hgap
    · rename_i hnone
      obtain ⟨⟨before', found', rest'⟩, hfind, heq⟩ := Option.map_eq_some_iff.mp h
      cases heq
      cases lead with
      | nil =>
        rw [htext, List.append_assoc, hbefore] at hnone
        exact hnone
      | cons first lead =>
        obtain ⟨-, hrest⟩ := List.cons.inj hbefore
        exact ih hfind hrest

/-- A run that may be empty goes on in the same way however long it is already. -/
theorem afterRun_zero {α : Type} {isMember : Char → Bool} {continue? : Text → Option α} (taken : Nat) (text : Text) :
    afterRun isMember 0 continue? taken text = afterRun isMember 0 continue? 0 text := by
  induction text generalizing taken with
  | nil => simp [afterRun]
  | cons c tail ih => simp only [afterRun, ih (taken + 1), ih (0 + 1), Nat.zero_le, if_true]

/-- A pattern that starts with blanks fits behind one more blank as well. -/
theorem exists_rest?_of_blank {c : Char} (hc : isBlank c = true) (h : rest? (.blanks :: more) text = some rest) :
    rest? (.blanks :: more) (c :: text) = some rest := by
  rw [rest?] at h ⊢
  rw [afterRun]
  simp only [hc, if_true, afterRun_zero (0 + 1) text, h]

/-- What is found of a pattern that starts with blanks has no blank in front. -/
theorem isBlank_getLast?_of_find? {before found : Text}
    (h : find? (.blanks :: more) text = some (before, found, rest)) : ∀ c ∈ before.getLast?, isBlank c = false := by
  intro c hlast
  obtain ⟨lead, hbefore⟩ := List.getLast?_eq_some_iff.mp hlast
  have hnone := rest?_eq_none_of_find? h hbefore (List.cons_ne_nil c [])
  rw [Bool.eq_false_iff]
  intro hc
  rw [List.singleton_append, exists_rest?_of_blank hc (rest?_of_find? h)] at hnone
  cases hnone

/-- Blanks at the end of a pattern take all blanks that there are. -/
theorem afterRun_isBlank (taken : Nat) (text : Text) : afterRun isBlank 0 some taken text = some (trimStart text) := by
  induction text generalizing taken with
  | nil => rfl
  | cons c tail ih =>
    rw [afterRun, trimStart]
    cases hc : isBlank c with
    | true => simp only [if_true, ih, List.dropWhile_cons_of_pos hc, trimStart]
    | false => simp [List.dropWhile_cons_of_neg (Bool.eq_false_iff.mp hc)]

/-- A pattern that ends with blanks leaves a text that does not start with one. -/
theorem isBlank_head?_of_rest? (h : rest? (front ++ [.blanks]) text = some rest) :
    ∀ c ∈ rest.head?, isBlank c = false := by
  induction front generalizing text with
  | nil =>
    have hrun : afterRun isBlank 0 (rest? []) 0 text = some rest := h
    rw [show rest? [] = some from rfl, afterRun_isBlank] at hrun
    cases hrun
    intro c hc
    have hhead := List.head?_dropWhile_not isBlank text
    rw [← trimStart, hc] at hhead
    exact Bool.eq_false_iff.mpr (by simpa using hhead)
  | cons piece front ih =>
    cases piece with
    | word word =>
      obtain ⟨tail, -, hmore⟩ := Option.bind_eq_some_iff.mp h
      exact ih hmore
    | blanks =>
      obtain ⟨tail, -, hmore⟩ := exists_suffix_of_afterRun h
      exact ih hmore
    | name =>
      obtain ⟨tail, -, hmore⟩ := exists_suffix_of_afterRun h
      exact ih hmore

end Pattern

/-- The marks that each line of a prompt starts with. -/
def commentMark : Text := "//".toList

/-- A text without comments has no prompt. -/
theorem findPrompt?_eq_none {text : Text} (h : ¬ commentMark <:+: text) : findPrompt? text = none := by
  cases hprompt : findPrompt? text with
  | none => rfl
  | some range =>
    obtain ⟨⟨before, found, rest⟩, hfind, -⟩ := Option.map_eq_some_iff.mp hprompt
    have hmark : Pattern.Piece.word commentMark ∈ promptPattern := List.mem_cons_of_mem _ List.mem_cons_self
    have hstands := Pattern.infix_of_rest? (Pattern.rest?_of_find? hfind) hmark
    rw [Pattern.eq_append_of_find? hfind, List.append_assoc] at h
    exact absurd (hstands.trans (List.suffix_append before _).isInfix) h

/-- The prompt of a text is a range between its characters. -/
theorem exists_selects_of_findPrompt? {text : Text} {range : Span} (h : findPrompt? text = some range) :
    ∃ found, Selects text range found := by
  obtain ⟨⟨before, found, rest⟩, hfind, rfl⟩ := Option.map_eq_some_iff.mp h
  exact ⟨found, before, rest, Pattern.eq_append_of_find? hfind, rfl, rfl⟩

end TaggedHeader
