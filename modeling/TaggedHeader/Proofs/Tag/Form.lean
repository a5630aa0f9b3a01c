import TaggedHeader.Proofs.Tag.Spelling

/-!
# Scanned tags are well formed

What a scan returns is a sequence of tags in the order of the text, and each of them is a literal block, a bracket
tag or an inclusion that stands where its span says. `Tag.HasForm` says what these three look like in terms of the
text alone: a comment with an end in it is none of them, and a bracket tag is never a literal block as well. The
spelling that a scan promises speaks of the first end of a comment; here it becomes the only one.
-/

namespace TaggedHeader

open Text

namespace Tag

/-- What follows the opener of a comment has no end of a comment in it but the one that it may end in. -/
def EndsOnce (body : Text) : Prop := ∀ before after, body = before ++ commentClose ++ after → after = []

/-- A literal block, with what stands between its delimiters. -/
structure IsLiteralBlock (content body : Text) : Prop where
  spelled : body = literalOpen ++ content ++ literalEnd ++ commentClose
  endsOnce : EndsOnce (content ++ literalEnd ++ commentClose)

/-- A bracket tag, with what stands between its brackets. -/
structure IsBracketTag (content body : Text) : Prop where
  spelled : body = bracketOpen ++ content ++ bracketEnd ++ commentClose
  endsOnce : EndsOnce (content ++ bracketEnd ++ commentClose)
  notLiteral : ∀ inner, ¬ IsLiteralBlock inner body

/-- An inclusion, with what stands between its brackets. -/
structure IsInclusion (name body : Text) : Prop where
  spelled : ∃ gap, (∀ c ∈ gap, c = ' ' ∨ c = '\t') ∧
    body = Lexeme.includeWord ++ gap ++ '<' :: name ++ ['>']

/-- The three forms of a tag in a text, where the span of the tag selects `body`. -/
inductive HasForm (text : Text) (tag : Tag) (body : Text) : Prop
  | literal (content : Text) (interior : Span) (hspelled : IsLiteralBlock content body) (hsize : 8 ≤ size body)
    (hdirective : tag.directive = .literal) (hinterior : tag.literalInterior = .ok interior)
    (hordered : interior.start ≤ interior.stop) (hcontent : slice interior text = .ok content)
  | bracket (content : Text) (hspelled : IsBracketTag content body) (hpayload : tag.payload = trim content)
    (hdirective : tag.directive = .parse tag.payload)
  | inclusion (header : HeaderName) (hspelled : IsInclusion tag.payload body)
    (hname : HeaderName.parse? tag.payload = some header) (hdirective : tag.directive = .includeHeader header)

/-- A tag is in a text where its span says, with bytes of its own, and has one of the three forms. -/
structure WellFormed (text : Text) (tag : Tag) : Prop where
  origin : tag.origin = tag.span.start
  nonempty : tag.span.start < tag.span.stop
  inBounds : tag.span.stop ≤ size text
  startBoundary : IsBoundary text tag.span.start
  stopBoundary : IsBoundary text tag.span.stop
  form : ∃ body, slice tag.span text = .ok body ∧ tag.HasForm text body

/-! ## The end of a comment -/

/-- A text is split at an end of a comment, or before it. -/
theorem exists_splitClose (before after : Text) : ∃ comment rest,
    splitClose (before ++ commentClose ++ after) = some (comment, rest) ∧ comment.length ≤ before.length := by
  induction before with
  | nil => exact ⟨[], after, rfl, Nat.le_refl _⟩
  | cons c before ih =>
    obtain ⟨comment, rest, hsplit, hle⟩ := ih
    rw [List.cons_append, List.cons_append]
    generalize before ++ commentClose ++ after = behind at hsplit
    unfold splitClose
    split
    · rename_i heq
      cases heq
    · exact ⟨[], _, rfl, Nat.zero_le _⟩
    · rename_i heq
      obtain ⟨rfl, rfl⟩ := List.cons.inj heq
      exact ⟨c :: comment, rest, by rw [hsplit]; rfl, Nat.succ_le_succ hle⟩

/-- A comment without an end in it ends at its close only. -/
theorem endsOnce_of_splitClose {comment : Text} (h : splitClose comment = none) :
    EndsOnce (comment ++ commentClose) := by
  intro before after hbody
  obtain ⟨first, rest, hsplit, hle⟩ := exists_splitClose before after
  have hfirst := splitClose_append [] h
  rw [List.append_nil, hbody, hsplit] at hfirst
  obtain ⟨rfl, -⟩ := Prod.mk.inj (Option.some.inj hfirst)
  have hlength := congrArg List.length hbody
  simp only [List.length_append] at hlength
  exact List.length_eq_zero_iff.mp (by omega)

/-! ## Tags in a text -/

variable {text : Text} {tag : Tag}

theorem StandsIn.hasForm (h : tag.StandsIn text) : ∃ body, slice tag.span text = .ok body ∧
    tag.HasForm text body := by
  obtain ⟨body, hselects, hspelling⟩ := h.body
  refine ⟨body, hselects.slice_eq, ?_⟩
  generalize hdirective : tag.directive = directive at hspelling
  generalize hpayload : tag.payload = payload at hspelling
  cases hspelling with
  | literal content hclose =>
    obtain ⟨interior, hinterior, hcontent, -⟩ := exists_literalInterior hselects
    refine .literal content interior ⟨rfl, endsOnce_of_splitClose hclose⟩ ?_ hdirective hinterior
      hcontent.start_le_stop hcontent.slice_eq
    have hdelimiters : size literalOpen + size literalEnd + size commentClose = 8 := rfl
    simp only [size_append]
    omega
  | bracket content hclose hsingle =>
    refine .bracket content ⟨rfl, endsOnce_of_splitClose hclose, fun inner hliteral => hsingle inner ?_⟩ hpayload
      (hpayload ▸ hdirective)
    have hbrackets : literalOpen ++ inner ++ literalEnd = bracketOpen ++ ('[' :: inner ++ [']']) ++ bracketEnd := by
      simp [literalOpen, literalEnd, bracketOpen, bracketEnd]
    have hspelled := hliteral.spelled
    rw [hbrackets] at hspelled
    exact List.append_cancel_left (List.append_cancel_right (List.append_cancel_right hspelled))
  | inclusion gap header hgap =>
    refine .inclusion header ⟨gap, fun c hc => ?_, hpayload ▸ rfl⟩ (hpayload ▸ header.parse?_text) hdirective
    simpa [Lexeme.isGap] using hgap c hc

theorem StandsIn.wellFormed (h : tag.StandsIn text) : tag.WellFormed text where
  origin := h.origin
  nonempty := h.start_lt_stop
  inBounds := h.isBoundary_stop.le_size
  startBoundary := h.isBoundary_start
  stopBoundary := h.isBoundary_stop
  form := h.hasForm

end Tag

/-- The tags of a text come in increasing order without sharing a byte, and each of them is well formed. -/
theorem scanTags_wellFormed (text : Text) :
    ((scanTags text).Pairwise fun first second =>
      first.span.start < second.span.start ∧ first.span.stop ≤ second.span.start) ∧
    ∀ tag ∈ scanTags text, tag.WellFormed text := by
  refine ⟨(scanTags_ordered text).imp_of_mem fun hfirst _ hle => ⟨?_, hle⟩, fun tag htag => ?_⟩
  · exact (standsIn_of_mem_scanTags hfirst).start_lt_stop.trans_le hle
  · exact (standsIn_of_mem_scanTags htag).wellFormed

/-- Tags whose openers and closers overlap: an opener in a literal block, a literal block that ends in one bracket, an
inclusion without a header, and an opener that takes the closing bracket of its own. -/
def overlappingTags : Text := "/*[[ /*[a ]]*//*[[x]*/#include <.>/*[*/#include\t<b.h>".toList

theorem scanTags_wellFormed_overlappingTags :
    (scanTags overlappingTags).map Tag.span = [⟨0, 14⟩, ⟨14, 22⟩, ⟨39, 53⟩] ∧
      ∃ tag ∈ scanTags overlappingTags, tag.span = ⟨14, 22⟩ ∧ tag.WellFormed overlappingTags := by
  have hspans : (scanTags overlappingTags).map Tag.span = [⟨0, 14⟩, ⟨14, 22⟩, ⟨39, 53⟩] := by decide +kernel
  have hmem : (⟨14, 22⟩ : Span) ∈ (scanTags overlappingTags).map Tag.span := by simp [hspans]
  obtain ⟨tag, htag, hspan⟩ := List.mem_map.mp hmem
  exact ⟨hspans, tag, htag, hspan, (scanTags_wellFormed overlappingTags).2 tag htag⟩

end TaggedHeader
