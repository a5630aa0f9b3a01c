import Mathlib.Data.List.Basic
import TaggedHeader.Proofs.Tag.Spelling
import TaggedHeader.Region.Scan

/-!
# The region between two markers

A marker may take one newline next to it along, so the borders of a region lie next to its markers and
not always at them. `Absorbs` names the bytes in between. No tag starts or ends with a newline, so a tag
that is clear of a marker is also clear of the newline that the marker takes. Building a region from tags
in order therefore never fails, and yields nested ranges that end between characters.
-/

namespace TaggedHeader

open Text

/-- From `start` to `stop` a text has nothing, or one newline. -/
def Absorbs (text : Text) (start stop : Nat) : Prop :=
  start = stop ∨ ∃ before after, text = before ++ '\n' :: after ∧ size before = start ∧ start + 1 = stop

namespace Absorbs

variable {text : Text} {start stop : Nat}

theorem le (h : Absorbs text start stop) : start ≤ stop := by
  rcases h with rfl | ⟨before, after, -, -, rfl⟩
  · exact Nat.le_refl _
  · exact Nat.le_succ _

theorem isBoundary_start (h : Absorbs text start stop) (hstop : IsBoundary text stop) :
    IsBoundary text start := by
  rcases h with rfl | ⟨before, after, rfl, hbefore, -⟩
  · exact hstop
  · exact ⟨before, '\n' :: after, rfl, hbefore⟩

theorem isBoundary_stop (h : Absorbs text start stop) (hstart : IsBoundary text start) :
    IsBoundary text stop := by
  rcases h with rfl | ⟨before, after, rfl, hbefore, rfl⟩
  · exact hstart
  · exact ⟨before ++ ['\n'], after, by simp, by rw [size_append, hbefore]; rfl⟩

/-- A tag that ends at a newline ends before it. -/
theorem stop_le {tag : Tag} (h : Absorbs text start stop) (htag : tag.StandsIn text)
    (hle : tag.span.stop ≤ stop) : tag.span.stop ≤ start := by
  rcases h with rfl | ⟨before, after, htext, hbefore, rfl⟩
  · exact hle
  · obtain ⟨body, ⟨before', after', htext', hstart', hstop'⟩, -, hlast⟩ := htag.selects_visible
    by_contra hlt
    have heq : before' ++ body ++ after' = before ++ ['\n'] ++ after := by
      rw [← htext', htext]; simp
    have hsize : size (before' ++ body) = size (before ++ ['\n']) := by
      rw [size_append, size_append, hbefore]
      change size before' + size body = start + 1
      omega
    obtain ⟨hends, -⟩ := append_inj_of_size_eq heq hsize
    have hbody : body.getLast? = some '\n' := by
      have hne : body ≠ [] := by rintro rfl; simp at hlast
      rw [← List.getLast?_append_of_ne_nil before' hne, hends, List.getLast?_concat]
    rw [hbody] at hlast
    exact absurd hlast (by decide)

/-- A tag that starts at a newline starts behind it. -/
theorem le_start {tag : Tag} (h : Absorbs text start stop) (htag : tag.StandsIn text)
    (hle : start ≤ tag.span.start) : stop ≤ tag.span.start := by
  rcases h with rfl | ⟨before, after, htext, hbefore, rfl⟩
  · exact hle
  · obtain ⟨body, ⟨before', after', htext', hstart', hstop'⟩, hhead, -⟩ := htag.selects_visible
    by_contra hlt
    have heq : before' ++ (body ++ after') = before ++ '\n' :: after := by
      rw [← List.append_assoc, ← htext', htext]
    obtain ⟨-, hrest⟩ := append_inj_of_size_eq heq (by omega)
    have hbody : body.head? = some '\n' := by
      cases body with
      | nil => simp at hhead
      | cons c body =>
        rw [List.cons_append, List.cons.injEq] at hrest
        rw [hrest.1]; rfl
    rw [hbody] at hhead
    exact absurd hhead (by decide)

end Absorbs

/-- A look at the character before a boundary tells whether it is a newline. -/
theorem followsNewline_eq {text : Text} {offset : Nat} (h : IsBoundary text offset) :
    ∃ answer, followsNewline text offset = .ok answer ∧
      (answer = true → 0 < offset ∧ Absorbs text (offset - 1) offset) := by
  obtain ⟨before, after, rfl, rfl⟩ := h
  refine ⟨before.getLast? == some '\n', ?_, fun hnewline => ?_⟩
  · simp [followsNewline, charBefore_append, bind, Except.bind, pure, Except.pure]
  · obtain ⟨front, rfl⟩ := List.getLast?_eq_some_iff.mp (beq_iff_eq.mp hnewline)
    have hsize : size (front ++ ['\n']) = size front + 1 := by rw [size_append]; rfl
    rw [hsize]
    exact ⟨Nat.succ_pos _, .inr ⟨front, after, by simp, rfl, rfl⟩⟩

/-- A look at the character behind a boundary tells whether it is a newline. -/
theorem charAt_eq {text : Text} {offset : Nat} (h : IsBoundary text offset) :
    ∃ next, charAt offset text = .ok next ∧
      (next = some '\n' → Absorbs text offset (offset + 1)) := by
  obtain ⟨before, after, rfl, rfl⟩ := h
  refine ⟨after.head?, charAt_append before after, fun hnewline => ?_⟩
  cases after with
  | nil => simp at hnewline
  | cons c after =>
    simp only [List.head?_cons, Option.some.injEq] at hnewline
    subst hnewline
    exact .inr ⟨before, after, rfl, rfl, rfl⟩

/-- A look behind a newline finds it. -/
theorem followsNewline_behind (before after : Text) :
    followsNewline (before ++ '\n' :: after) (size before + 1) = .ok true := by
  have hsplit : before ++ '\n' :: after = (before ++ ['\n']) ++ after := by simp
  have hsize : size before + 1 = size (before ++ ['\n']) := by
    rw [size_append]
    rfl
  rw [hsplit, hsize, followsNewline, charBefore_append, List.getLast?_concat]
  rfl

/-- Two markers that stand behind newlines take them along. -/
theorem markedRegion_behind {text : Text} {opening closing : Span}
    (hopening : followsNewline text opening.start = .ok true) (hnext : IsBoundary text opening.stop)
    (hclosing : followsNewline text closing.start = .ok true) (hlt : opening.stop < closing.start) :
    markedRegion text .preserved opening closing =
      .ok ⟨.preserved, ⟨opening.start - 1, closing.stop⟩, ⟨opening.stop, closing.start - 1⟩⟩ := by
  obtain ⟨next, hnext, -⟩ := charAt_eq hnext
  simp [markedRegion, hopening, hnext, hclosing, hlt, bind, Except.bind, pure, Except.pure]

/-- A marker at the start of a text takes the newline behind it along, which is then no longer there for the other
marker to take. -/
theorem markedRegion_start {text : Text} {stop : Nat} {closing : Span}
    (hnext : charAt stop text = .ok (some '\n')) (hclosing : followsNewline text closing.start = .ok true) :
    markedRegion text .preserved ⟨0, stop⟩ closing = .ok ⟨.preserved, ⟨0, closing.stop⟩,
      ⟨stop + 1, if stop + 1 < closing.start then closing.start - 1 else closing.start⟩⟩ := by
  have hstart : followsNewline text 0 = .ok false := by
    simp [followsNewline, charBefore, cutAt, bind, Except.bind, pure, Except.pure]
  simp [markedRegion, hstart, hnext, hclosing, bind, Except.bind, pure, Except.pure]

/-- The borders of a region next to its first and last tag. -/
structure Region.Bounds (text : Text) (opener closer : Span) (region : Region) : Prop where
  start : Absorbs text region.span.start opener.start
  interiorStart : Absorbs text opener.stop region.interior.start
  interiorStop : Absorbs text region.interior.stop closer.start
  stop : region.span.stop = closer.stop
  interior_ordered : region.interior.start ≤ region.interior.stop

/-- Two markers in order delimit a region. -/
theorem markedRegion_bounds {text : Text} (kind : RegionKind) {opener closer : Tag}
    (hopener : opener.StandsIn text) (hcloser : closer.StandsIn text)
    (hle : opener.span.stop ≤ closer.span.start) :
    ∃ region, markedRegion text kind opener.span closer.span = .ok region ∧ region.kind = kind ∧
      region.Bounds text opener.span closer.span := by
  obtain ⟨openerNewline, hopenerNewline, hbefore⟩ := followsNewline_eq hopener.isBoundary_start
  obtain ⟨closerNewline, hcloserNewline, hend⟩ := followsNewline_eq hcloser.isBoundary_start
  obtain ⟨next, hnext, hbehind⟩ := charAt_eq hopener.isBoundary_stop
  have hstart : Absorbs text (if openerNewline then opener.span.start - 1 else opener.span.start)
      opener.span.start := by
    split
    · rename_i hnewline; exact (hbefore hnewline).2
    · exact .inl rfl
  by_cases hkind : kind = .removed
  · refine ⟨⟨kind, ⟨if openerNewline then opener.span.start - 1 else opener.span.start,
        closer.span.stop⟩, ⟨opener.span.stop, closer.span.start⟩⟩, ?_, rfl, hstart, .inl rfl, .inl rfl,
      rfl, hle⟩
    simp [markedRegion, hopenerNewline, hkind, bind, Except.bind, pure, Except.pure]
  · -- The end marker leaves a newline alone that the begin marker has taken.
    have hinterior : Absorbs text opener.span.stop
        (if !openerNewline && opener.span.start == 0 && next == some '\n' then opener.span.stop + 1
          else opener.span.stop) := by
      split
      · rename_i hnewline
        simp only [Bool.and_eq_true, beq_iff_eq] at hnewline
        exact hbehind hnewline.2
      · exact .inl rfl
    generalize hinteriorStart : (if !openerNewline && opener.span.start == 0 && next == some '\n'
      then opener.span.stop + 1 else opener.span.stop) = interiorStart at hinterior
    have hclear := hinterior.le_start hcloser hle
    refine ⟨⟨kind, ⟨if openerNewline then opener.span.start - 1 else opener.span.start,
        closer.span.stop⟩, ⟨interiorStart, if closerNewline && interiorStart < closer.span.start
        then closer.span.start - 1 else closer.span.start⟩⟩, ?_, rfl, hstart, hinterior, ?_, rfl, ?_⟩
    · simp [markedRegion, hopenerNewline, hcloserNewline, hnext, hkind, ← hinteriorStart, bind,
        Except.bind, pure, Except.pure]
    · simp only
      split
      · rename_i hnewline
        simp only [Bool.and_eq_true, decide_eq_true_eq] at hnewline
        exact (hend hnewline.1).2
      · exact .inl rfl
    · simp only
      split
      · rename_i hnewline
        simp only [Bool.and_eq_true, decide_eq_true_eq] at hnewline
        omega
      · exact hclear

/-- A region whose borders lie between characters, with markers that take up bytes of their own. -/
structure Region.FitsIn (text : Text) (region : Region) : Prop where
  isBoundary_start : IsBoundary text region.span.start
  isBoundary_interiorStart : IsBoundary text region.interior.start
  isBoundary_interiorStop : IsBoundary text region.interior.stop
  isBoundary_stop : IsBoundary text region.span.stop
  opening_lt : region.span.start < region.interior.start
  interior_le : region.interior.start ≤ region.interior.stop
  closing_lt : region.interior.stop < region.span.stop

/-- The region between two markers fits in the text. -/
theorem Region.Bounds.fitsIn {text : Text} {opener closer : Tag} {region : Region}
    (h : region.Bounds text opener.span closer.span) (hopener : opener.StandsIn text)
    (hcloser : closer.StandsIn text) : region.FitsIn text where
  isBoundary_start := h.start.isBoundary_start hopener.isBoundary_start
  isBoundary_interiorStart := h.interiorStart.isBoundary_stop hopener.isBoundary_stop
  isBoundary_interiorStop := h.interiorStop.isBoundary_start hcloser.isBoundary_start
  isBoundary_stop := h.stop ▸ hcloser.isBoundary_stop
  opening_lt :=
    (h.start.le.trans_lt hopener.start_lt_stop).trans_le h.interiorStart.le
  interior_le := h.interior_ordered
  closing_lt := h.stop ▸ h.interiorStop.le.trans_lt hcloser.start_lt_stop

/-- The spelling of a literal block leaves room for both of its delimiters. -/
theorem literalInterior_fitsIn {text : Text} {tag : Tag} (htag : tag.StandsIn text)
    (hliteral : tag.directive = .literal) :
    ∃ interior, tag.literalInterior = .ok interior ∧
      (⟨.literal, tag.span, interior⟩ : Region).FitsIn text := by
  obtain ⟨body, hselects, hspelling⟩ := htag.body
  rw [hliteral] at hspelling
  obtain ⟨content, rfl⟩ := hspelling.eq_of_literal
  obtain ⟨interior, hinterior, hcontent, hopening, hclosing⟩ := Tag.exists_literalInterior hselects
  exact ⟨interior, hinterior, htag.isBoundary_start, hcontent.isBoundary_start, hcontent.isBoundary_stop,
    htag.isBoundary_stop, hopening, hcontent.start_le_stop, hclosing⟩

end TaggedHeader
