import Mathlib.Data.List.TakeWhile
import TaggedHeader.Proofs.Text.Selection
import TaggedHeader.Tag.Scan

/-!
# How the tags of a text are spelled

Every tag that a scan returns stands in the text: its span selects a literal block, a bracket tag or an
inclusion, and the directive and payload of the tag are read off that part. The tags come out in order and
share no byte. The induction follows the lexer's steps; what one step recognises is `Lexeme.Covers`, and
what a step makes of the text behind it is `Tag.Spelling`.
-/

namespace TaggedHeader

open Text

/-- What a step has passed over when it recognises a lexeme, and what may follow. -/
def Lexeme.Covers : Lexeme → (used rest : Text) → Prop
  | .literalOpen, used, _ => used = Tag.literalOpen
  | .tagOpen, used, rest => used = Tag.bracketOpen ∧ rest.head? ≠ some '['
  | .inclusion name, used, _ =>
    ∃ gap, (∀ c ∈ gap, isGap c = true) ∧ used = includeWord ++ gap ++ '<' :: name ++ ['>']

/-- How a directive with its payload is written. A comment ends at its first `*/`, and a bracket tag is
no literal block. -/
inductive Tag.Spelling : Directive → (payload body : Text) → Prop
  | literal (content : Text) (hclose : splitClose (content ++ literalEnd) = none) :
    Spelling .literal (trim content) (literalOpen ++ content ++ literalEnd ++ commentClose)
  | bracket (content : Text) (hclose : splitClose (content ++ bracketEnd) = none)
    (hsingle : ∀ inner, content ≠ '[' :: inner ++ [']']) :
    Spelling (.parse (trim content)) (trim content)
      (bracketOpen ++ content ++ bracketEnd ++ commentClose)
  | inclusion (gap : Text) (header : HeaderName) (hgap : ∀ c ∈ gap, Lexeme.isGap c = true) :
    Spelling (.includeHeader header) header.text
      (Lexeme.includeWord ++ gap ++ '<' :: header.text ++ ['>'])

/-- A tag stands in a text when its span selects its spelling and nothing has moved it. -/
structure Tag.StandsIn (text : Text) (tag : Tag) : Prop where
  origin : tag.origin = tag.span.start
  body : ∃ body, Selects text tag.span body ∧ Tag.Spelling tag.directive tag.payload body

/-- A word that begins a text is followed by what is left of it. -/
theorem Text.eq_append_of_dropWord? {word text rest : Text} (h : dropWord? word text = some rest) :
    text = word ++ rest := by
  fun_induction dropWord? word text with
  | case1 text => simpa using h
  | case2 word w text ih => rw [ih h]; rfl
  | case3 w word c text hne => simp at h
  | case4 w word => simp at h

/-- A word that ends a text follows what is left of it. -/
theorem Text.eq_append_of_dropLastWord? {word text rest : Text}
    (h : dropLastWord? word text = some rest) : text = rest ++ word := by
  obtain ⟨reversed, hreversed, rfl⟩ := Option.map_eq_some_iff.mp h
  have htext := eq_append_of_dropWord? hreversed
  rw [← List.reverse_reverse text, htext]
  simp

theorem Text.dropWord?_append (word rest : Text) : dropWord? word (word ++ rest) = some rest := by
  induction word with
  | nil => cases rest <;> rfl
  | cons w word ih => simp [dropWord?, ih]

theorem Text.dropLastWord?_append (rest word : Text) :
    dropLastWord? word (rest ++ word) = some rest := by
  simp [dropLastWord?, dropWord?_append]

/-- What a payload can name: no literal block and no inclusion, and an import target only as it is read. -/
def Directive.IsReading : Directive → Prop
  | .importTarget target => ∃ text, ImportTarget.parse? text = some target
  | .literal | .includeHeader _ => False
  | _ => True

theorem Directive.parse_isReading (payload : Text) : (Directive.parse payload).IsReading := by
  unfold Directive.parse
  simp only
  split
  · exact trivial
  · unfold Directive.ofWords
    split
    · split <;> exact trivial
    · split
      · rename_i second _ _
        cases htarget : ImportTarget.parse? second with
        | none => exact trivial
        | some target => exact ⟨second, htarget⟩
      · repeat' split
        all_goals exact trivial
    · split
      · cases ModuleName.parse? _ <;> exact trivial
      · split
        · cases ModuleName.parse? _ <;> exact trivial
        · exact trivial
    · exact trivial

/-- No payload names a literal block. -/
theorem Directive.parse_ne_literal (payload : Text) : Directive.parse payload ≠ .literal := by
  intro h
  have hreading := Directive.parse_isReading payload
  rw [h] at hreading
  exact hreading

namespace Lexeme

theorem readComment_covers {text : Text} {lexeme : Lexeme}
    (h : (readComment text).lexeme = some lexeme) :
    lexeme.Covers (readComment text).used (readComment text).rest := by
  unfold readComment at h ⊢
  split at h
  · cases h; rfl
  · rename_i rest hrest
    cases h
    refine ⟨rfl, fun hhead => ?_⟩
    cases rest with
    | nil => simp at hhead
    | cons c rest =>
      simp only [List.head?_cons, Option.some.injEq] at hhead
      exact hrest rest (by rw [hhead])
  · simp at h
  · simp at h

theorem readInclusion_covers {text : Text} {lexeme : Lexeme}
    (h : (readInclusion includeWord text).lexeme = some lexeme) :
    lexeme.Covers (readInclusion includeWord text).used (readInclusion includeWord text).rest := by
  simp only [readInclusion] at h ⊢
  split at h
  · split at h
    · cases h
      exact ⟨text.takeWhile isGap, fun c hc => List.mem_takeWhile_imp hc, rfl⟩
    · simp at h
  · simp at h

/-- A lexeme that a step recognises is written where the step started. -/
theorem read_covers {text : Text} {lexeme : Lexeme} (h : (read text).lexeme = some lexeme) :
    lexeme.Covers (read text).used (read text).rest := by
  unfold read at h ⊢
  split at h
  · simp at h
  · exact readComment_covers h
  · simp only at h ⊢
    split at h
    · rename_i whole
      simp only [if_pos whole]
      rw [whole] at h ⊢
      exact readInclusion_covers h
    · simp at h
  · simp at h

end Lexeme

namespace Tag

/-- The text behind an opener, taken apart at the first end of a comment. -/
theorem eq_append_of_splitClose {text comment rest : Text}
    (h : splitClose text = some (comment, rest)) :
    text = comment ++ commentClose ++ rest ∧ splitClose comment = none := by
  fun_induction splitClose text generalizing comment with
  | case1 => simp at h
  | case2 after =>
    simp only [Option.some.injEq, Prod.mk.injEq] at h
    obtain ⟨rfl, rfl⟩ := h
    exact ⟨rfl, rfl⟩
  | case3 c tail hne ih =>
    obtain ⟨⟨inner, after⟩, hinner, heq⟩ := Option.map_eq_some_iff.mp h
    simp only [Prod.mk.injEq] at heq
    obtain ⟨rfl, rfl⟩ := heq
    obtain ⟨htail, hnone⟩ := ih hinner
    refine ⟨by rw [htail]; rfl, ?_⟩
    rw [splitClose]
    · rw [hnone]; rfl
    · rintro more rfl rfl
      exact hne _ rfl htail

/-- A comment without an end in it ends at the one behind it. -/
theorem splitClose_append {comment : Text} (after : Text) (h : splitClose comment = none) :
    splitClose (comment ++ commentClose ++ after) = some (comment, after) := by
  fun_induction splitClose comment with
  | case1 => rfl
  | case2 => simp at h
  | case3 c rest hne ih =>
    have hrest : splitClose rest = none := by simpa using h
    rw [List.cons_append, List.cons_append, splitClose, ih hrest]
    · rfl
    · intro more hc hmore
      cases rest with
      | nil => simp [commentClose] at hmore
      | cons d rest =>
        simp only [List.cons_append, List.cons.injEq] at hmore
        exact hne rest hc (by rw [hmore.1])

/-- What bracket tags and literal blocks have in common: a comment between two delimiters, whose content is read. -/
def commentTag? (opener closer : Text) (reading : Text → Directive) (offset : Nat) (body : Text) : Option Tag := do
  let (comment, _) ← splitClose body
  let content ← dropLastWord? closer comment
  return { directive := reading (trim content)
           span := ⟨offset, offset + size opener + size comment + size commentClose⟩
           origin := offset
           payload := trim content }

theorem bracketTag?_eq (offset : Nat) (body : Text) :
    bracketTag? offset body = commentTag? bracketOpen bracketEnd .parse offset body := rfl

theorem literalTag?_eq (offset : Nat) (body : Text) :
    literalTag? offset body = commentTag? literalOpen literalEnd (fun _ => .literal) offset body := rfl

/-- A comment makes a tag when the closer stands before the first end of a comment. -/
theorem commentTag?_eq_some_iff {opener closer : Text} {reading : Text → Directive} {offset : Nat} {body : Text}
    {tag : Tag} : commentTag? opener closer reading offset body = some tag ↔
      ∃ content after, body = content ++ closer ++ commentClose ++ after ∧ splitClose (content ++ closer) = none ∧
        tag = ⟨reading (trim content), ⟨offset, offset + size (opener ++ content ++ closer ++ commentClose)⟩,
          offset, trim content⟩ := by
  simp only [commentTag?, Option.bind_eq_bind, Option.bind_eq_some_iff, Option.pure_def, Option.some.injEq]
  constructor
  · rintro ⟨⟨comment, after⟩, hclose, content, hcontent, rfl⟩
    obtain ⟨hbody, hnone⟩ := eq_append_of_splitClose hclose
    have hcomment := eq_append_of_dropLastWord? hcontent
    subst hcomment
    refine ⟨content, after, hbody, hnone, ?_⟩
    simp only [size_append, Nat.add_assoc]
  · rintro ⟨content, after, rfl, hclose, rfl⟩
    refine ⟨_, splitClose_append after hclose, content, dropLastWord?_append content closer, ?_⟩
    simp only [size_append, Nat.add_assoc]

/-- What a literal block yields, in the text it was read from. -/
theorem spelling_of_literalTag? {offset : Nat} {rest : Text} {tag : Tag}
    (h : literalTag? offset rest = some tag) :
    ∃ body after, literalOpen ++ rest = body ++ after ∧ tag.origin = offset ∧
      tag.span = ⟨offset, offset + size body⟩ ∧ Spelling tag.directive tag.payload body := by
  rw [literalTag?_eq] at h
  obtain ⟨content, after, rfl, hclose, rfl⟩ := commentTag?_eq_some_iff.mp h
  exact ⟨_, after, by simp, rfl, rfl, .literal content hclose⟩

/-- What a bracket tag yields, in the text it was read from. -/
theorem spelling_of_bracketTag? {offset : Nat} {rest : Text} {tag : Tag}
    (h : bracketTag? offset rest = some tag)
    (hsingle : ∀ inner after, rest = '[' :: inner ++ literalEnd ++ commentClose ++ after →
      splitClose ('[' :: inner ++ literalEnd) ≠ none) :
    ∃ body after, bracketOpen ++ rest = body ++ after ∧ tag.origin = offset ∧
      tag.span = ⟨offset, offset + size body⟩ ∧ Spelling tag.directive tag.payload body := by
  rw [bracketTag?_eq] at h
  obtain ⟨content, after, rfl, hclose, rfl⟩ := commentTag?_eq_some_iff.mp h
  refine ⟨_, after, by simp, rfl, rfl, .bracket content hclose fun inner hinner => ?_⟩
  have hclosers : content ++ bracketEnd = '[' :: inner ++ literalEnd := by
    rw [hinner]
    simp [bracketEnd, literalEnd]
  rw [hclosers] at hclose hsingle
  exact hsingle inner after rfl hclose

/-- A tag that a step of the lexer completes is spelled from the start of the step on. -/
theorem spelling_of_ofStep? {offset : Nat} {text : Text} {tag : Tag}
    (h : ofStep? offset (Lexeme.read text) = some tag) :
    ∃ body after, text = body ++ after ∧ tag.origin = offset ∧
      tag.span = ⟨offset, offset + size body⟩ ∧ Spelling tag.directive tag.payload body := by
  have htext := Lexeme.used_append_rest text
  unfold ofStep? at h
  split at h
  · simp at h
  · rename_i hlexeme
    have hused : (Lexeme.read text).used = literalOpen := Lexeme.read_covers hlexeme
    rw [hused] at htext
    rw [← htext]
    cases hliteral : literalTag? offset (Lexeme.read text).rest with
    | some literal =>
      rw [hliteral] at h
      cases h
      exact spelling_of_literalTag? hliteral
    | none =>
      rw [hliteral] at h
      refine spelling_of_bracketTag? h fun inner after hrest hnone => ?_
      have hinner : splitClose (inner ++ literalEnd) = none := by
        rw [List.cons_append, splitClose] at hnone
        · simpa using hnone
        · simp
      have hbehind : (Lexeme.read text).rest = inner ++ literalEnd ++ commentClose ++ after := by
        simpa using hrest
      rw [literalTag?_eq, commentTag?_eq_some_iff.mpr ⟨inner, after, hbehind, hinner, rfl⟩] at hliteral
      cases hliteral
  · rename_i hlexeme
    obtain ⟨hused, hhead⟩ := Lexeme.read_covers hlexeme
    rw [hused] at htext
    rw [← htext]
    refine spelling_of_bracketTag? h fun inner after hrest => ?_
    rw [hrest] at hhead
    simp at hhead
  · rename_i name hlexeme
    obtain ⟨gap, hgap, hused⟩ := Lexeme.read_covers hlexeme
    obtain ⟨header, hheader, rfl⟩ := Option.map_eq_some_iff.mp h
    have hname := HeaderName.text_eq_of_parse? hheader
    refine ⟨_, _, htext.symm, rfl, rfl, ?_⟩
    rw [hused, ← hname]
    exact .inclusion gap header hgap

/-- A literal block is written between its own delimiters. -/
theorem Spelling.eq_of_literal {payload body : Text} (h : Spelling .literal payload body) :
    ∃ content, body = literalOpen ++ content ++ literalEnd ++ commentClose := by
  generalize hdirective : Directive.literal = directive at h
  cases h with
  | literal content => exact ⟨content, rfl⟩
  | bracket content => exact absurd hdirective.symm (Directive.parse_ne_literal _)
  | inclusion gap header => cases hdirective

/-- The inside of a literal block is what stands between its delimiters. -/
theorem exists_literalInterior {text content : Text} {tag : Tag}
    (h : Selects text tag.span (literalOpen ++ content ++ literalEnd ++ commentClose)) :
    ∃ interior, tag.literalInterior = .ok interior ∧ Selects text interior content ∧
      tag.span.start < interior.start ∧ interior.stop < tag.span.stop := by
  obtain ⟨before, after, htext, hstart, hstop⟩ := h
  have hopen : size literalOpen = 4 := rfl
  have hclose : size literalEnd + size commentClose = 4 := rfl
  simp only [size_append] at hstop
  refine ⟨⟨tag.span.start + size literalOpen, tag.span.stop - (size literalEnd + size commentClose)⟩, ?_,
    ⟨before ++ literalOpen, literalEnd ++ commentClose ++ after, by rw [htext]; simp, ?_, ?_⟩, ?_, ?_⟩
  · rw [literalInterior, if_neg (by omega)]
  · rw [size_append, hstart]
  · simp only [size_append]
    omega
  · simp only [hopen]
    omega
  · simp only [hclose]
    omega

/-- A spelling starts and ends with a character that is no blank. -/
theorem Spelling.ends_visible {directive : Directive} {payload body : Text}
    (h : Spelling directive payload body) :
    body.head?.any (!isBlank ·) = true ∧ body.getLast?.any (!isBlank ·) = true := by
  cases h with
  | literal content => exact ⟨rfl, by simp [commentClose, isBlank]⟩
  | bracket content => exact ⟨rfl, by simp [commentClose, isBlank]⟩
  | inclusion gap header => exact ⟨rfl, by rw [List.getLast?_concat]; rfl⟩

end Tag

/-- A tag that the scan completes starts where the step did, and not before the scan resumes. -/
theorem spelling_of_found {offset resume : Nat} {text : Text} {tag : Tag}
    (h : (if resume ≤ offset then Tag.ofStep? offset (Lexeme.read text) else none) = some tag) :
    resume ≤ offset ∧ ∃ body after, text = body ++ after ∧ tag.origin = offset ∧
      tag.span = ⟨offset, offset + size body⟩ ∧ Tag.Spelling tag.directive tag.payload body := by
  split at h
  · rename_i hresume
    exact ⟨hresume, Tag.spelling_of_ofStep? h⟩
  · contradiction

/-- No tag of a scan starts before the byte at which the scan resumes. -/
theorem resume_le_of_mem_scanFrom {offset resume : Nat} {text : Text} {tag : Tag}
    (h : tag ∈ scanFrom offset resume text) : resume ≤ tag.span.start := by
  fun_induction scanFrom offset resume text with
  | case1 => simp at h
  | case2 offset resume c rest step found hfound ih =>
    obtain ⟨hresume, body, after, -, -, hspan, -⟩ := spelling_of_found hfound
    rcases List.mem_cons.mp h with rfl | htail
    · rw [hspan]; exact hresume
    · have hstop := ih htail
      rw [hspan] at hstop
      exact hresume.trans ((Nat.le_add_right _ _).trans hstop)
  | case3 offset resume c rest step hfound ih => exact ih h

/-- The tags of a scan come in order, each behind the one before it. -/
theorem scanFrom_ordered (offset resume : Nat) (text : Text) :
    (scanFrom offset resume text).Pairwise fun first second => first.span.stop ≤ second.span.start := by
  fun_induction scanFrom offset resume text with
  | case1 => exact List.Pairwise.nil
  | case2 offset resume c rest step found hfound ih =>
    exact List.pairwise_cons.mpr ⟨fun tag htag => resume_le_of_mem_scanFrom htag, ih⟩
  | case3 offset resume c rest step hfound ih => exact ih

/-- A scan behind a part of a text finds tags that stand in the whole text. -/
theorem standsIn_of_mem_scanFrom {offset resume : Nat} {text : Text} {tag : Tag}
    (h : tag ∈ scanFrom offset resume text) :
    ∀ before, size before = offset → tag.StandsIn (before ++ text) := by
  fun_induction scanFrom offset resume text with
  | case1 => simp at h
  | case2 offset resume c rest step found hfound ih =>
    intro before hbefore
    rcases List.mem_cons.mp h with rfl | htail
    · obtain ⟨-, body, after, htext, horigin, hspan, hspelling⟩ := spelling_of_found hfound
      refine ⟨by rw [horigin, hspan], body, ⟨before, after, ?_, ?_, ?_⟩, hspelling⟩
      · rw [htext, List.append_assoc]
      · rw [hbefore, hspan]
      · rw [hbefore, hspan]
    · have hused : step.used ++ step.rest = c :: rest := Lexeme.used_append_rest (c :: rest)
      have hrest := ih htail (before ++ step.used) (by rw [size_append, hbefore])
      rwa [List.append_assoc, hused] at hrest
  | case3 offset resume c rest step hfound ih =>
    intro before hbefore
    have hused : step.used ++ step.rest = c :: rest := Lexeme.used_append_rest (c :: rest)
    have hrest := ih h (before ++ step.used) (by rw [size_append, hbefore])
    rwa [List.append_assoc, hused] at hrest

/-- The tags of a text share no byte and come in order. -/
theorem scanTags_ordered (text : Text) :
    (scanTags text).Pairwise fun first second => first.span.stop ≤ second.span.start :=
  scanFrom_ordered 0 0 text

/-- Every tag of a text stands in it. -/
theorem standsIn_of_mem_scanTags {text : Text} {tag : Tag} (h : tag ∈ scanTags text) :
    tag.StandsIn text :=
  standsIn_of_mem_scanFrom h [] rfl

namespace Tag.StandsIn

variable {text : Text} {tag : Tag}

/-- The part of the text that a tag takes up starts and ends with a character that is no blank. -/
theorem selects_visible (h : tag.StandsIn text) : ∃ body, Selects text tag.span body ∧
    body.head?.any (!isBlank ·) = true ∧ body.getLast?.any (!isBlank ·) = true := by
  obtain ⟨body, hselects, hspelling⟩ := h.body
  exact ⟨body, hselects, hspelling.ends_visible⟩

/-- A tag takes up at least one byte. -/
theorem start_lt_stop (h : tag.StandsIn text) : tag.span.start < tag.span.stop := by
  obtain ⟨body, hselects, hhead, -⟩ := h.selects_visible
  refine hselects.start_lt_stop ?_
  rintro rfl
  simp at hhead

theorem isBoundary_start (h : tag.StandsIn text) : IsBoundary text tag.span.start := by
  obtain ⟨body, hselects, -⟩ := h.body
  exact hselects.isBoundary_start

theorem isBoundary_stop (h : tag.StandsIn text) : IsBoundary text tag.span.stop := by
  obtain ⟨body, hselects, -⟩ := h.body
  exact hselects.isBoundary_stop

end Tag.StandsIn
end TaggedHeader
