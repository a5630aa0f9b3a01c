import TaggedHeader.Proofs.Name
import TaggedHeader.Proofs.Tag.Spelling

/-!
# No tag is missed

A step of the lexer that fails goes on at the character where it failed, so a tag can only be passed over by
a step that reads on beyond its start. Only an inclusion reads over slashes and hash signs, between its
brackets; everything else that a step reads behind its first character starts no tag. The induction follows
the steps of the scan, and carries along how far the start of the tag is still away.
-/

namespace TaggedHeader

open Text

/-- A text that starts with a complete tag: a bracket tag, or the inclusion of a header. -/
inductive Tag.Starts : Text → Prop
  | bracket (content after : Text) (hclose : splitClose (content ++ bracketEnd) = none) :
    Starts (bracketOpen ++ (content ++ bracketEnd ++ commentClose ++ after))
  | inclusion (gap : Text) (header : HeaderName) (after : Text) (hgap : ∀ c ∈ gap, Lexeme.isGap c = true) :
    Starts (Lexeme.includeWord ++ (gap ++ '<' :: (header.text ++ '>' :: after)))

/-- The beginning of an inclusion, up to a place between its brackets. -/
def Lexeme.OpensInclusion (text : Text) : Prop :=
  ∃ gap name, text = includeWord ++ gap ++ '<' :: name ∧ (∀ c ∈ gap, isGap c = true) ∧
    ∀ c ∈ name, isBracketed c = true

/-- A character that can start a tag. -/
def Lexeme.isSign (c : Char) : Bool := c == '/' || c == '#'

/-- A header name may stand between the brackets of an inclusion. -/
theorem HeaderName.isBracketed_of_mem (header : HeaderName) :
    ∀ c ∈ header.text, Lexeme.isBracketed c = true := by
  intro c hc
  have hname := header.isTargetChar_of_mem c hc
  simp only [Lexeme.isBracketed, Bool.and_eq_true, bne_iff_ne]
  refine ⟨⟨?_, ?_⟩, ?_⟩ <;> rintro rfl <;> revert hname <;> decide

namespace Lexeme

theorem commonPrefix_self (word text : Text) : commonPrefix word (word ++ text) = (word, text) := by
  induction word with
  | nil => cases text <;> rfl
  | cons w word ih => simp [commonPrefix, ih]

theorem commonPrefix_prefix (word text : Text) : (commonPrefix word text).1 <+: word := by
  fun_induction commonPrefix word text with
  | case1 word c text shared rest hshared ih =>
    rw [hshared] at ih
    exact List.prefix_cons_inj _ |>.mpr ih
  | case2 w word c text hne => exact List.nil_prefix
  | case3 word text => exact List.nil_prefix

/-- Behind its hash sign, the word of an inclusion and the blanks behind it hold no sign. -/
theorem isSign_of_mem_tail {word gap : Text} (hword : word <+: includeWord)
    (hgap : ∀ c ∈ gap, isGap c = true) : ∀ c ∈ (word ++ gap).tail, isSign c = false := by
  have hgapSign : ∀ c ∈ gap, isSign c = false := by
    intro c hc
    have hblank := hgap c hc
    simp only [isGap, Bool.or_eq_true, beq_iff_eq] at hblank
    rcases hblank with rfl | rfl <;> rfl
  have hwordSign : ∀ c ∈ includeWord.tail, isSign c = false := by
    simp [includeWord, isSign]
  intro c hc
  cases word with
  | nil => exact hgapSign c (List.mem_of_mem_tail hc)
  | cons w word =>
    rcases List.mem_append.mp hc with hmem | hmem
    · obtain ⟨rest, hrest⟩ := hword
      refine hwordSign c ?_
      rw [← hrest]
      exact List.mem_append_left _ hmem
    · exact hgapSign c hmem

/-- A step behind the word of an inclusion stops in front of the bracket or between the brackets. -/
theorem readInclusion_used (text : Text) :
    (readInclusion includeWord text).used = includeWord ++ text.takeWhile isGap ∨
      ∃ opener closer, (readInclusion includeWord text).used = opener ++ closer ∧ OpensInclusion opener ∧
        ∀ c ∈ closer, isSign c = false := by
  have hgap : ∀ c ∈ text.takeWhile isGap, isGap c = true := fun c hc => List.mem_takeWhile_imp hc
  simp only [readInclusion]
  split
  · rename_i inner hinner
    have hname : ∀ c ∈ inner.takeWhile isBracketed, isBracketed c = true := fun c hc => List.mem_takeWhile_imp hc
    right
    split
    · exact ⟨_, ['>'], rfl, ⟨_, _, rfl, hgap, hname⟩, by simp [isSign]⟩
    · exact ⟨_, [], (List.append_nil _).symm, ⟨_, _, rfl, hgap, hname⟩, by simp⟩
  · exact .inl rfl

/-- A step that does not come between the brackets of an inclusion reads no sign behind its first character. -/
theorem read_used (text : Text) :
    (∀ c ∈ (read text).used.tail, isSign c = false) ∨
      ∃ opener closer, (read text).used = opener ++ closer ∧ OpensInclusion opener ∧
        ∀ c ∈ closer, isSign c = false := by
  unfold read
  split
  · exact .inl (by simp)
  · left
    unfold readComment
    split <;> simp [isSign]
  · rename_i rest
    simp only
    split
    · rename_i hword
      rw [hword]
      refine (readInclusion_used _).imp_left fun hused => ?_
      rw [hused]
      exact isSign_of_mem_tail (List.prefix_refl _) fun c hc => List.mem_takeWhile_imp hc
    · left
      have hshared := commonPrefix_prefix includeWord ('#' :: rest)
      simpa using isSign_of_mem_tail hshared (List.forall_mem_nil _)
  · exact .inl (by simp)

theorem mem_tail_of_eq_append {text skipped more : Text} {c : Char} (h : text = skipped ++ c :: more)
    (hskipped : skipped ≠ []) : c ∈ text.tail := by
  obtain ⟨d, rest, rfl⟩ := List.exists_cons_of_ne_nil hskipped
  simp [h]

/-- A character that the front of a text holds at most at its start stands behind the front. -/
theorem exists_middle {front back skipped more : Text} {c : Char} (h : front ++ back = skipped ++ c :: more)
    (hfront : c ∉ front.tail) (hskipped : skipped ≠ []) :
    ∃ middle, skipped = front ++ middle ∧ back = middle ++ c :: more := by
  rcases List.append_eq_append_iff.mp h with hbehind | ⟨part, hpart, hmore⟩
  · exact hbehind
  · cases part with
    | nil => exact ⟨[], by simpa using hpart.symm, hmore.symm⟩
    | cons d part =>
      obtain rfl : c = d := (List.cons.inj hmore).1
      exact absurd (mem_tail_of_eq_append hpart hskipped) hfront

/-- A step that reads on beyond a sign is an inclusion with the sign between its brackets. -/
theorem opensInclusion_of_used {text skipped more : Text} {c : Char}
    (h : (read text).used = skipped ++ c :: more) (hsign : isSign c = true) (hskipped : skipped ≠ []) :
    OpensInclusion skipped := by
  have hother : ∀ {part : Text}, (∀ d ∈ part, isSign d = false) → c ∉ part := fun hpart hmem => by
    rw [hpart c hmem] at hsign
    cases hsign
  rcases read_used text with hplain | ⟨opener, closer, hused, ⟨gap, name, rfl, hgap, hname⟩, hcloser⟩
  · exact absurd (mem_tail_of_eq_append h hskipped) (hother hplain)
  · have hfront : c ∉ (includeWord ++ gap ++ ['<']).tail := by
      refine hother fun d hd => ?_
      rw [List.tail_append_of_ne_nil (by simp [includeWord]), List.mem_append, List.mem_singleton] at hd
      rcases hd with hd | rfl
      · exact isSign_of_mem_tail (List.prefix_refl _) hgap d hd
      · rfl
    have hsplit : includeWord ++ gap ++ ['<'] ++ (name ++ closer) = skipped ++ c :: more := by
      rw [← h, hused]
      simp
    obtain ⟨middle, rfl, hmiddle⟩ := exists_middle hsplit hfront hskipped
    rcases List.append_eq_append_iff.mp hmiddle with ⟨part, -, hpart⟩ | ⟨part, rfl, -⟩
    · exact absurd (by simp [hpart]) (hother hcloser)
    · exact ⟨gap, middle, by simp, hgap, fun d hd => hname d (List.mem_append_left _ hd)⟩

/-- A step at a complete inclusion recognises it. -/
theorem read_inclusion {gap name : Text} (after : Text) (hgap : ∀ c ∈ gap, isGap c = true)
    (hname : ∀ c ∈ name, isBracketed c = true) :
    read (includeWord ++ (gap ++ '<' :: (name ++ '>' :: after))) =
      ⟨some (.inclusion name), includeWord ++ gap ++ '<' :: name ++ ['>'], after⟩ := by
  have hread : ∀ text, read (includeWord ++ text) = readInclusion includeWord text := by
    intro text
    have hshared := commonPrefix_self includeWord text
    rw [show includeWord ++ text = '#' :: (includeWord.tail ++ text) from rfl] at hshared ⊢
    simp only [read, hshared, if_pos]
  have hblank : (gap ++ '<' :: (name ++ '>' :: after)).takeWhile isGap = gap ∧
      (gap ++ '<' :: (name ++ '>' :: after)).dropWhile isGap = '<' :: (name ++ '>' :: after) := by
    rw [List.takeWhile_append_of_pos hgap, List.dropWhile_append_of_pos hgap]
    exact ⟨List.append_nil gap, rfl⟩
  have hinner : (name ++ '>' :: after).takeWhile isBracketed = name ∧
      (name ++ '>' :: after).dropWhile isBracketed = '>' :: after := by
    rw [List.takeWhile_append_of_pos hname, List.dropWhile_append_of_pos hname]
    exact ⟨List.append_nil name, rfl⟩
  rw [hread]
  simp only [readInclusion, hblank, hinner]

end Lexeme

/-- A tag starts with a sign. -/
theorem Tag.Starts.exists_sign {text : Text} (h : Tag.Starts text) :
    ∃ c rest, text = c :: rest ∧ Lexeme.isSign c = true := by
  cases h with
  | bracket content after => exact ⟨'/', _, rfl, rfl⟩
  | inclusion gap header after => exact ⟨'#', _, rfl, rfl⟩

/-- A step before a complete tag ends before the tag as well, unless the tag stands between the brackets of an
inclusion. -/
theorem Tag.Starts.skipped_cases {text skipped suffix : Text} (h : Tag.Starts suffix)
    (htext : text = skipped ++ suffix) :
    skipped = [] ∨ Lexeme.OpensInclusion skipped ∨
      ∃ skipped', skipped = (Lexeme.read text).used ++ skipped' ∧
        (Lexeme.read text).rest = skipped' ++ suffix := by
  obtain ⟨sign, behind, rfl, hsign⟩ := h.exists_sign
  have hwhole := (Lexeme.used_append_rest text).trans htext
  rcases List.append_eq_append_iff.mp hwhole with ⟨skipped', hskipped, hrest⟩ | ⟨part, hused, hpart⟩
  · exact .inr (.inr ⟨skipped', hskipped, hrest⟩)
  · cases part with
    | nil => exact .inr (.inr ⟨[], by simpa using hused.symm, hpart.symm⟩)
    | cons d more =>
      obtain rfl : sign = d := (List.cons.inj hpart).1
      by_cases hskipped : skipped = []
      · exact .inl hskipped
      · exact .inr (.inl (Lexeme.opensInclusion_of_used hused hsign hskipped))

/-- A step at the start of a complete tag finds it. -/
theorem Tag.Starts.isSome_ofStep? {text : Text} (h : Tag.Starts text) (offset : Nat) :
    (Tag.ofStep? offset (Lexeme.read text)).isSome = true := by
  cases h with
  | bracket content after hclose =>
    have htag : (bracketTag? offset (content ++ bracketEnd ++ commentClose ++ after)).isSome = true := by
      rw [bracketTag?_eq, commentTag?_eq_some_iff.mpr ⟨content, after, rfl, hclose, rfl⟩]
      rfl
    generalize content ++ bracketEnd ++ commentClose ++ after = body at htag
    cases body with
    | nil => exact htag
    | cons c rest =>
      by_cases hc : c = '['
      · subst hc
        cases hliteral : literalTag? offset rest with
        | some literal => simp [bracketOpen, Lexeme.read, Lexeme.readComment, ofStep?, hliteral]
        | none => simpa [bracketOpen, Lexeme.read, Lexeme.readComment, ofStep?, hliteral] using htag
      · simpa [bracketOpen, Lexeme.read, Lexeme.readComment, ofStep?, hc] using htag
  | inclusion gap header after hgap =>
    have hname := header.isBracketed_of_mem
    rw [Lexeme.read_inclusion after hgap hname]
    simp [ofStep?, inclusionTag?, HeaderName.parse?_text]

/-- A tag that a step completes starts with the step and has bytes. -/
theorem start_lt_stop_of_found {offset resume : Nat} {text : Text} {tag : Tag}
    (h : (if resume ≤ offset then Tag.ofStep? offset (Lexeme.read text) else none) = some tag) :
    tag.span.start = offset ∧ offset < tag.span.stop := by
  obtain ⟨-, body, after, -, -, hspan, hspelling⟩ := spelling_of_found h
  have hnonempty : body ≠ [] := by
    rintro rfl
    simpa using hspelling.ends_visible.1
  have hpos := size_pos hnonempty
  rw [hspan]
  exact ⟨rfl, Nat.lt_add_of_pos_right hpos⟩

/-- A complete tag behind the start of a scan is found, starts before the scan resumes, or stands between the
brackets of an inclusion. -/
theorem scanFrom_complete {offset resume : Nat} {text suffix : Text} (hstarts : Tag.Starts suffix) :
    ∀ skipped, text = skipped ++ suffix →
      (∃ tag ∈ scanFrom offset resume text, tag.span.start ≤ offset + size skipped ∧
          offset + size skipped < tag.span.stop) ∨
        offset + size skipped < resume ∨
        ∃ before opener, skipped = before ++ opener ∧ Lexeme.OpensInclusion opener := by
  fun_induction scanFrom offset resume text with
  | case1 offset resume =>
    intro skipped h
    obtain ⟨sign, behind, rfl, -⟩ := hstarts.exists_sign
    simp at h
  | case2 offset resume c rest step tag hfound ih =>
    intro skipped h
    obtain ⟨hstart, hstop⟩ := start_lt_stop_of_found hfound
    rcases hstarts.skipped_cases h with rfl | hopener | ⟨skipped', rfl, hrest⟩
    · exact .inl ⟨tag, List.mem_cons_self, Nat.le_of_eq hstart, hstop⟩
    · exact .inr (.inr ⟨[], skipped, rfl, hopener⟩)
    · rw [size_append, ← Nat.add_assoc]
      rcases ih skipped' hrest with ⟨found, hmem, hspan⟩ | hresume | ⟨before, opener, rfl, hopener⟩
      · exact .inl ⟨found, List.mem_cons_of_mem _ hmem, hspan⟩
      · refine .inl ⟨tag, List.mem_cons_self, ?_, hresume⟩
        rw [hstart, Nat.add_assoc]
        exact Nat.le_add_right _ _
      · exact .inr (.inr ⟨step.used ++ before, opener, (List.append_assoc _ _ _).symm, hopener⟩)
  | case3 offset resume c rest step hnone ih =>
    intro skipped h
    rcases hstarts.skipped_cases h with rfl | hopener | ⟨skipped', rfl, hrest⟩
    · -- The step stands at the tag and would have found it, but the scan has not resumed.
      refine .inr (.inl (Nat.lt_of_not_le fun hle => ?_))
      have hsome := hstarts.isSome_ofStep? offset
      rw [← List.nil_append suffix, ← h] at hsome
      rw [dif_pos (show resume ≤ offset from hle)] at hnone
      exact Option.isSome_iff_ne_none.mp hsome hnone
    · exact .inr (.inr ⟨[], skipped, rfl, hopener⟩)
    · rw [size_append, ← Nat.add_assoc]
      refine (ih skipped' hrest).imp_right (Or.imp_right ?_)
      rintro ⟨before, opener, rfl, hopener⟩
      exact ⟨step.used ++ before, opener, (List.append_assoc _ _ _).symm, hopener⟩

/-- A bracket tag is written at a byte: the first end of a comment behind its opener follows a bracket. -/
def IsBracketTagAt (text : Text) (start : Nat) : Prop :=
  Selects text ⟨start, start + 3⟩ Tag.bracketOpen ∧
    ∃ close, start + 4 ≤ close ∧ Selects text ⟨close - 1, close⟩ Tag.bracketEnd ∧
      Selects text ⟨close, close + 2⟩ Tag.commentClose ∧
      ∀ earlier, start + 3 ≤ earlier → earlier < close →
        ¬ Selects text ⟨earlier, earlier + 2⟩ Tag.commentClose

/-- The inclusion of a header is written at a byte. -/
def IsInclusionAt (text : Text) (start : Nat) : Prop :=
  ∃ gap name stop, (∀ c ∈ gap, Lexeme.isGap c = true) ∧ (HeaderName.parse? name).isSome = true ∧
    Selects text ⟨start, stop⟩ (Lexeme.includeWord ++ gap ++ '<' :: name ++ ['>'])

/-- An inclusion starts before a byte, with its opening bracket before the byte too, and with neither a
bracket nor a newline between the two. -/
def IsBehindInclusion (text : Text) (position : Nat) : Prop :=
  ∃ start opener, start < position ∧ Lexeme.OpensInclusion opener ∧ Selects text ⟨start, position⟩ opener

theorem IsBracketTagAt.exists_starts {text : Text} {start : Nat} (h : IsBracketTagAt text start) :
    ∃ before suffix, text = before ++ suffix ∧ size before = start ∧ Tag.Starts suffix := by
  obtain ⟨⟨before, rest, htext, hbefore, -⟩, close, hle, ⟨left, right, hend, hleft, hleft'⟩,
    ⟨left', after, hcomment, hclose, -⟩, hfirst⟩ := h
  simp only at hbefore hleft hleft' hclose
  have hopen : size Tag.bracketOpen = 3 := rfl
  -- The bracket and the end of the comment stand side by side, behind the opener.
  obtain ⟨rfl, rfl⟩ : left ++ Tag.bracketEnd = left' ∧ right = Tag.commentClose ++ after := by
    refine append_inj_of_size_eq (hend.symm.trans (hcomment.trans (List.append_assoc _ _ _))) ?_
    rw [size_append, hleft', hclose]
  rw [List.append_assoc left] at hend
  obtain ⟨content, rfl, rfl⟩ := exists_append_of_size_le (htext.symm.trans hend)
    (by rw [size_append]; omega)
  refine ⟨before, Tag.bracketOpen ++ (content ++ Tag.bracketEnd ++ Tag.commentClose ++ after), ?_, hbefore,
    .bracket content after ?_⟩
  · rw [htext]
    simp
  · cases hsplit : Tag.splitClose (content ++ Tag.bracketEnd) with
    | none => rfl
    | some parts =>
      obtain ⟨comment, behind⟩ := parts
      obtain ⟨hparts, -⟩ := Tag.eq_append_of_splitClose hsplit
      have hsizes := congrArg size hparts
      have hcloser : size Tag.commentClose = 2 := rfl
      simp only [size_append] at hsizes hleft hleft'
      refine absurd ?_ (hfirst (start + 3 + size comment) (by omega) (by omega))
      refine ⟨before ++ Tag.bracketOpen ++ comment, behind ++ Tag.commentClose ++ after, ?_, ?_, ?_⟩
      · have hbody : content ++ (Tag.bracketEnd ++ (Tag.commentClose ++ after)) =
            comment ++ Tag.commentClose ++ behind ++ (Tag.commentClose ++ after) := by
          rw [← hparts, List.append_assoc]
        rw [htext, hbody]
        simp
      · simp only [size_append]
        omega
      · simp only [size_append]
        omega

theorem IsInclusionAt.exists_starts {text : Text} {start : Nat} (h : IsInclusionAt text start) :
    ∃ before suffix, text = before ++ suffix ∧ size before = start ∧ Tag.Starts suffix := by
  obtain ⟨gap, name, stop, hgap, hname, before, after, htext, hbefore, -⟩ := h
  obtain ⟨header, hheader⟩ := Option.isSome_iff_exists.mp hname
  obtain rfl := HeaderName.text_eq_of_parse? hheader
  refine ⟨before, _, ?_, hbefore, .inclusion gap header after hgap⟩
  rw [htext]
  simp

/-- A scan misses a tag only behind an inclusion on the same line.

Where a bracket tag or the inclusion of a header is written in a text, a tag of the scan covers its first
byte, or an inclusion starts before it with its opening bracket between the two and no bracket or newline
behind that. -/
theorem scanTags_complete {text : Text} {start : Nat} (h : IsBracketTagAt text start ∨ IsInclusionAt text start) :
    (∃ tag ∈ scanTags text, tag.span.start ≤ start ∧ start < tag.span.stop) ∨ IsBehindInclusion text start := by
  have hstarts : ∃ before suffix, text = before ++ suffix ∧ size before = start ∧ Tag.Starts suffix :=
    h.elim IsBracketTagAt.exists_starts IsInclusionAt.exists_starts
  obtain ⟨before, suffix, htext, rfl, hstarts⟩ := hstarts
  rcases scanFrom_complete hstarts before htext with ⟨tag, htag, hspan⟩ | hresume | ⟨left, opener, rfl, hopener⟩
  · rw [Nat.zero_add] at hspan
    exact .inl ⟨tag, htag, hspan⟩
  · exact absurd hresume (Nat.not_lt_zero _)
  · have hnonempty : opener ≠ [] := by
      obtain ⟨gap, name, rfl, -⟩ := hopener
      exact List.cons_ne_nil _ _
    have hpos := size_pos hnonempty
    have hlt : size left < size (left ++ opener) := by
      rw [size_append]
      exact Nat.lt_add_of_pos_right hpos
    exact .inr ⟨size left, opener, hlt, hopener, left, suffix, htext, rfl, (size_append left opener).symm⟩

/-- A text with a tag that an inclusion hides. -/
def hiddenTag : Text := "#include <b /*[c]*/".toList

theorem scanTags_complete_hiddenTag :
    IsBracketTagAt hiddenTag 12 ∧ scanTags hiddenTag = [] ∧ IsBehindInclusion hiddenTag 12 := by
  have hwritten : IsBracketTagAt hiddenTag 12 := by
    refine ⟨⟨"#include <b ".toList, "c]*/".toList, rfl, rfl, rfl⟩, 17, by decide,
      ⟨"#include <b /*[c".toList, "*/".toList, rfl, rfl, rfl⟩,
      ⟨"#include <b /*[c]".toList, [], rfl, rfl, rfl⟩, fun earlier hle hlt hselects => ?_⟩
    have hslice := congrArg Except.toOption hselects.slice_eq
    obtain rfl | rfl : earlier = 15 ∨ earlier = 16 := by omega
    · exact absurd hslice (by decide)
    · exact absurd hslice (by decide)
  have hnone : scanTags hiddenTag = [] := by decide +kernel
  refine ⟨hwritten, hnone, (scanTags_complete (.inl hwritten)).resolve_left ?_⟩
  rintro ⟨tag, htag, -⟩
  rw [hnone] at htag
  cases htag

end TaggedHeader
