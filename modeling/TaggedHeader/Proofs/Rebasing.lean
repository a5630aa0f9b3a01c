import Mathlib.Order.Nat
import TaggedHeader.Edit
import TaggedHeader.Proofs.Substitution

/-!
# An edit as one more substitution

A text that results from a sweep is edited where a further range of the given text has ended up. The edit
then moves every recorded range to where the sweep with one more substitution puts it. Tag spans and
regions move by different rules; the two agree on every range that has bytes of its own. An empty region
next to the edited range is the one exception: it lands behind the inserted text.
-/

namespace TaggedHeader

open Text

namespace Edit

variable {edit : Edit} {range : Span}

theorem mapStart_of_lt {position : Nat} (h : position < edit.start) : edit.mapStart position = position := by
  have := edit.ordered
  grind [mapStart]

theorem mapStart_of_ge {position : Nat} (h : edit.stop ≤ position) :
    edit.mapStart position = edit.shift position := by
  grind [mapStart]

theorem mapStop_of_le {position : Nat} (h : position ≤ edit.start) : edit.mapStop position = position := by
  have := edit.ordered
  grind [mapStop]

theorem mapStop_of_gt {position : Nat} (h : edit.stop < position) :
    edit.mapStop position = edit.shift position := by
  grind [mapStop]

/-- Positions behind an edit keep their distance. -/
theorem shift_mono {first second : Nat} (h : first ≤ second) : edit.shift first ≤ edit.shift second := by
  simp only [shift]
  omega

/-- A region behind an edit moves as a whole. -/
theorem mapRange_behind (h : edit.stop ≤ range.start) (hle : range.start ≤ range.stop) :
    edit.mapRange range = ⟨edit.shift range.start, edit.shift range.stop⟩ := by
  rw [mapRange, mapStart_of_ge h]
  rcases Nat.eq_or_lt_of_le (h.trans hle) with heq | hlt
  · -- The edit ends where the region, which is empty, starts.
    have hempty : range.start = range.stop := Nat.le_antisymm hle (heq.symm.trans_le h)
    have hstop : edit.mapStop range.stop ≤ edit.shift range.stop :=
      mapStart_of_ge (h.trans hle) ▸ edit.mapStop_le_mapStart (Nat.le_refl _)
    rw [hempty, Nat.max_eq_right hstop]
  · rw [mapStop_of_gt hlt, Nat.max_eq_left (shift_mono hle)]

/-- A region before an edit stays. -/
theorem mapRange_before (h : range.stop ≤ edit.start) (hlt : range.start < edit.start)
    (hle : range.start ≤ range.stop) : edit.mapRange range = range := by
  rw [mapRange, mapStart_of_lt hlt, mapStop_of_le h, Nat.max_eq_left hle]

/-- An empty region where an edit starts moves behind the inserted text. -/
theorem mapRange_empty (edit : Edit) :
    edit.mapRange ⟨edit.start, edit.start⟩ = ⟨edit.start + edit.inserted, edit.start + edit.inserted⟩ := by
  have hstart : edit.mapStart edit.start = edit.start + edit.inserted := by
    grind [mapStart, shift]
  rw [mapRange, hstart, mapStop_of_le (Nat.le_refl _), Nat.max_eq_right (Nat.le_add_right _ _)]

/-- A region never becomes inverted. -/
theorem mapRange_start_le_stop (edit : Edit) (range : Span) :
    (edit.mapRange range).start ≤ (edit.mapRange range).stop := Nat.le_max_right _ _

/-- Regions in order stay in order. -/
theorem mapRange_ordered (edit : Edit) {first second : Span} (hle : first.start ≤ first.stop)
    (h : first.stop ≤ second.start) : (edit.mapRange first).stop ≤ (edit.mapRange second).start :=
  Nat.max_le.mpr ⟨edit.mapStop_le_mapStart h, edit.mapStart_mono (hle.trans h)⟩

/-- A moved range into which the edit cuts no hole holds the positions of the range before the edit, and those
behind it where they have been moved. -/
theorem mem_mapRange_iff (hle : range.start ≤ range.stop)
    (hwhole : ¬ (range.start < edit.start ∧ edit.stop < range.stop)) (position : Nat) :
    (edit.mapRange range).start ≤ position ∧ position < (edit.mapRange range).stop ↔
      position < edit.start ∧ range.start ≤ position ∧ position < range.stop ∨
      edit.start + edit.inserted ≤ position ∧
        range.start ≤ edit.stop + (position - (edit.start + edit.inserted)) ∧
        edit.stop + (position - (edit.start + edit.inserted)) < range.stop := by
  have := edit.ordered
  grind [mapRange, mapStart, mapStop, shift]

/-- A range that ends in a text ends in it after the edit. -/
theorem mapRange_stop_le {length : Nat} (hstop : range.stop ≤ length) (hle : range.start ≤ range.stop)
    (hedit : edit.stop ≤ length) :
    (edit.mapRange range).stop ≤ edit.start + edit.inserted + (length - edit.stop) := by
  have := edit.ordered
  grind [mapRange, mapStart, mapStop, shift]

end Edit

namespace Substitution

variable {text : Text} {subs : List Substitution} {new : Substitution} {edit : Edit}

/-- An edit replaces the range of a substitution where it has ended up. -/
structure Makes (text : Text) (subs : List Substitution) (new : Substitution) (edit : Edit) : Prop where
  start : edit.start = place subs text new.span.start
  stop : edit.stop = place subs text new.span.stop
  inserted : edit.inserted = size new.text

/-- Substitutions that fit in a text and leave the range of a further one alone. -/
structure Admits (text : Text) (subs : List Substitution) (new : Substitution) : Prop where
  fitsIn : ∀ sub ∈ subs, sub.FitsIn text
  new_fitsIn : new.FitsIn text
  spare : Spare subs new.span

namespace Admits

variable (h : Admits text subs new) (hedit : Makes text subs new edit)
include h

theorem start_lt_stop : ∀ sub ∈ subs, sub.span.start < sub.span.stop :=
  fun sub hsub => (h.fitsIn sub hsub).start_lt_stop

/-- The range of the substitution has bytes where it has ended up. -/
theorem place_start_lt_stop : place subs text new.span.start < place subs text new.span.stop :=
  place_lt h.new_fitsIn.isBoundary_start h.new_fitsIn.isBoundary_stop h.new_fitsIn.start_lt_stop
    h.start_lt_stop h.spare

include hedit

/-- A position before the range stays, and lies before the edit. -/
theorem place_before {position : Nat} (hposition : IsBoundary text position)
    (hle : position ≤ new.span.start) :
    place (new :: subs) text position = place subs text position ∧
      place subs text position ≤ edit.start := by
  refine ⟨place_cons_of_le h.new_fitsIn hposition hle, ?_⟩
  rw [hedit.start]
  exact place_mono _ hposition h.new_fitsIn.isBoundary_start hle

/-- A position behind the range lies behind the edit, and is shifted. -/
theorem place_behind {position : Nat} (hposition : IsBoundary text position)
    (hle : new.span.stop ≤ position) :
    place (new :: subs) text position = edit.shift (place subs text position) ∧
      edit.stop ≤ place subs text position := by
  have hmoved := place_cons_of_ge h.new_fitsIn hposition hle h.start_lt_stop h.spare
  have hmono := place_mono subs h.new_fitsIn.isBoundary_stop hposition hle
  rw [Edit.shift, hedit.start, hedit.stop, hedit.inserted]
  omega

/-- A range that shares a byte with the substitution still does so where both have ended up. -/
theorem place_touched {span : Span} (hstart : IsBoundary text span.start)
    (hstop : IsBoundary text span.stop) (hlt : span.start < span.stop) (hspare : Spare subs span)
    (hapart : ¬ new.span.Apart span) :
    edit.start < place subs text span.stop ∧ place subs text span.start < edit.stop := by
  obtain ⟨hnewStart, hnewStop, hnewLt⟩ := h.new_fitsIn
  simp only [Span.Apart, not_or, Nat.not_le] at hapart
  obtain ⟨hbehind, hbefore⟩ := hapart
  rw [hedit.start, hedit.stop]
  -- The bytes from the later start to the stop of the range lie in the range, and stay distinct.
  have hshared : ∀ start, IsBoundary text start → span.start ≤ start → start < span.stop →
      place subs text start < place subs text span.stop := fun start hboundary hge hless =>
    place_lt hboundary hstop hless h.start_lt_stop (hspare.of_encloses ⟨hge, Nat.le_refl _⟩)
  have hshared' : ∀ stop, IsBoundary text stop → span.start < stop → stop ≤ span.stop →
      place subs text span.start < place subs text stop := fun stop hboundary hgt hle =>
    place_lt hstart hboundary hgt h.start_lt_stop (hspare.of_encloses ⟨Nat.le_refl _, hle⟩)
  constructor
  · rcases Nat.le_total span.start new.span.start with hle | hle
    · exact hshared _ hnewStart hle hbefore
    · exact (place_mono _ hnewStart hstart hle).trans_lt (hshared _ hstart (Nat.le_refl _) hlt)
  · rcases Nat.le_total new.span.stop span.stop with hle | hle
    · exact hshared' _ hnewStop hbehind hle
    · exact (hshared' _ hstop hlt (Nat.le_refl _)).trans_le (place_mono _ hstop hnewStop hle)

/-- A deletion moves every position to where the sweep puts it, as the start and as the end of a region. -/
theorem place_cut (hcut : new.text = []) {position : Nat} (hposition : IsBoundary text position) :
    edit.mapStart (place subs text position) = place (new :: subs) text position ∧
      edit.mapStop (place subs text position) = place (new :: subs) text position := by
  have hedited := h.place_start_lt_stop
  have hinserted : edit.inserted = 0 := by rw [hedit.inserted, hcut, size]
  rw [← hedit.start, ← hedit.stop] at hedited
  by_cases hbefore : position ≤ new.span.start
  · obtain ⟨hplace, hle⟩ := h.place_before hedit hposition hbefore
    rw [hplace]
    grind [Edit.mapStart, Edit.mapStop]
  · by_cases hbehind : new.span.stop ≤ position
    · obtain ⟨hplace, hle⟩ := h.place_behind hedit hposition hbehind
      rw [hplace]
      grind [Edit.mapStart, Edit.mapStop, Edit.shift]
    · have hboundaryStop := h.new_fitsIn.isBoundary_stop
      have hplace := place_cons_of_within h.new_fitsIn hcut hposition (by omega) (by omega) h.start_lt_stop
        h.spare
      have hlow := place_mono subs h.new_fitsIn.isBoundary_start hposition (by omega)
      have hhigh := place_mono subs hposition hboundaryStop (by omega)
      rw [← hedit.start] at hlow
      rw [← hedit.stop] at hhigh
      rw [hplace, ← hedit.start]
      grind [Edit.mapStart, Edit.mapStop, Edit.shift]

/-- A deletion moves every region to where the sweep puts it, even one that it touches. -/
theorem mapRange_cut (hcut : new.text = []) {range : Span} (hstart : IsBoundary text range.start)
    (hstop : IsBoundary text range.stop) (hle : range.start ≤ range.stop) :
    edit.mapRange (placeSpan subs text range) = placeSpan (new :: subs) text range := by
  obtain ⟨hmapStart, -⟩ := h.place_cut hedit hcut hstart
  obtain ⟨-, hmapStop⟩ := h.place_cut hedit hcut hstop
  simp only [Edit.mapRange, placeSpan]
  rw [hmapStart, hmapStop, Nat.max_eq_left (place_mono _ hstart hstop hle)]

/-- An edit gives up a tag that it touches, and moves any other tag. -/
theorem mapSpan_placeSpan {span : Span} (hstart : IsBoundary text span.start)
    (hstop : IsBoundary text span.stop) (hlt : span.start < span.stop) (hspare : Spare subs span) :
    edit.mapSpan (placeSpan subs text span) =
      .ok (if new.span.Apart span then some (placeSpan (new :: subs) text span) else none) := by
  have hedited := h.place_start_lt_stop
  rw [← hedit.start, ← hedit.stop] at hedited
  rw [Edit.mapSpan]
  by_cases hbefore : span.stop ≤ new.span.start
  · obtain ⟨hplaceStart, -⟩ := h.place_before hedit hstart (Nat.le_of_lt (hlt.trans_le hbefore))
    obtain ⟨hplaceStop, hle⟩ := h.place_before hedit hstop hbefore
    replace hle : (placeSpan subs text span).stop ≤ edit.start := hle
    have hkept : placeSpan (new :: subs) text span = placeSpan subs text span := by
      rw [placeSpan, placeSpan, hplaceStart, hplaceStop]
    rw [if_pos hle, if_pos (.inr hbefore), hkept]
  · by_cases hbehind : new.span.stop ≤ span.start
    · obtain ⟨hplaceStart, hle⟩ := h.place_behind hedit hstart hbehind
      obtain ⟨hplaceStop, hle'⟩ := h.place_behind hedit hstop (Nat.le_of_lt (hbehind.trans_lt hlt))
      have hmoved : placeSpan (new :: subs) text span =
          ⟨edit.shift (placeSpan subs text span).start, edit.shift (placeSpan subs text span).stop⟩ := by
        rw [placeSpan, hplaceStart, hplaceStop]
        rfl
      replace hle : edit.stop ≤ (placeSpan subs text span).start := hle
      have hnotBefore : ¬ (placeSpan subs text span).stop ≤ edit.start :=
        Nat.not_le.mpr (hedited.trans_le hle')
      have hnotInverted : ¬ (placeSpan subs text span).stop < edit.stop - edit.start :=
        Nat.not_lt.mpr ((Nat.sub_le _ _).trans hle')
      rw [if_neg hnotBefore, if_pos hle, if_neg hnotInverted, if_pos (.inl hbehind), hmoved]
    · have hapart : ¬ new.span.Apart span := fun hapart => hapart.elim hbehind hbefore
      obtain ⟨hstopGt, hstartLt⟩ := h.place_touched hedit hstart hstop hlt hspare hapart
      replace hstopGt : ¬ (placeSpan subs text span).stop ≤ edit.start := Nat.not_le.mpr hstopGt
      replace hstartLt : ¬ edit.stop ≤ (placeSpan subs text span).start := Nat.not_le.mpr hstartLt
      rw [if_neg hstopGt, if_neg hstartLt, if_neg hapart]

/-- A region behind an edit moves to its place. -/
theorem mapRange_behind {range : Span} (hstart : IsBoundary text range.start)
    (hstop : IsBoundary text range.stop) (hle : range.start ≤ range.stop)
    (hbehind : new.span.stop ≤ range.start) :
    edit.mapRange (placeSpan subs text range) = placeSpan (new :: subs) text range := by
  obtain ⟨hplaceStart, hbehindStart⟩ := h.place_behind hedit hstart hbehind
  obtain ⟨hplaceStop, -⟩ := h.place_behind hedit hstop (hbehind.trans hle)
  rw [Edit.mapRange_behind hbehindStart (place_mono _ hstart hstop hle)]
  simp only [placeSpan, hplaceStart, hplaceStop]

/-- A region before an edit with a byte between its start and the edit keeps its place. -/
theorem mapRange_before {range : Span} (hstart : IsBoundary text range.start)
    (hstop : IsBoundary text range.stop) (hle : range.start ≤ range.stop)
    (hbefore : range.stop ≤ new.span.start)
    (hlt : place subs text range.start < place subs text new.span.start) :
    edit.mapRange (placeSpan subs text range) = placeSpan (new :: subs) text range := by
  obtain ⟨hplaceStart, -⟩ := h.place_before hedit hstart (hle.trans hbefore)
  obtain ⟨hplaceStop, hbeforeStop⟩ := h.place_before hedit hstop hbefore
  rw [Edit.mapRange_before hbeforeStop (hedit.start ▸ hlt) (place_mono _ hstart hstop hle), placeSpan,
    placeSpan, hplaceStart, hplaceStop]

/-- A region with bytes that no substitution touches moves to its place. -/
theorem mapRange_spare {range : Span} (hstart : IsBoundary text range.start)
    (hstop : IsBoundary text range.stop) (hlt : range.start < range.stop) (hspare : Spare subs range)
    (hapart : new.span.Apart range) :
    edit.mapRange (placeSpan subs text range) = placeSpan (new :: subs) text range := by
  rcases hapart with hbehind | hbefore
  · exact h.mapRange_behind hedit hstart hstop (Nat.le_of_lt hlt) hbehind
  · have hbytes := place_lt hstart hstop hlt h.start_lt_stop hspare
    have hmono := place_mono subs hstop h.new_fitsIn.isBoundary_start hbefore
    exact h.mapRange_before hedit hstart hstop (Nat.le_of_lt hlt) hbefore (hbytes.trans_le hmono)

/-- A region that starts with the edited range ends where it did, if it goes on behind the edit. -/
theorem mapRange_stop {range : Span} (hstop : IsBoundary text range.stop)
    (hstart : range.start = new.span.start) (hle : new.span.stop ≤ range.stop)
    (hlt : place subs text new.span.stop < place subs text range.stop) :
    (edit.mapRange (placeSpan subs text range)).stop = place (new :: subs) text range.stop := by
  have hedited := h.place_start_lt_stop
  obtain ⟨hplace, -⟩ := h.place_behind hedit hstop hle
  rw [← hedit.start, ← hedit.stop] at hedited
  rw [← hedit.stop] at hlt
  have hmapStart : edit.mapStart edit.start = edit.start + edit.inserted := by
    grind [Edit.mapStart]
  simp only [Edit.mapRange, placeSpan, hstart]
  rw [Edit.mapStop_of_gt hlt, ← hedit.start, hmapStart, hplace, Nat.max_eq_left]
  simp only [Edit.shift]
  omega

/-- An empty region right before an edit ends up behind it. -/
theorem mapRange_empty {position : Nat}
    (heq : place subs text position = place subs text new.span.start) :
    edit.mapRange (placeSpan subs text ⟨position, position⟩) =
      placeSpan (new :: subs) text ⟨new.span.stop, new.span.stop⟩ := by
  obtain ⟨hplace, -⟩ := h.place_behind hedit h.new_fitsIn.isBoundary_stop (Nat.le_refl _)
  have hordered := edit.ordered
  have hshift : edit.shift edit.stop = edit.start + edit.inserted := by
    simp only [Edit.shift]
    omega
  rw [← hedit.stop, hshift] at hplace
  simp only [placeSpan]
  rw [heq, ← hedit.start, Edit.mapRange_empty, hplace]

end Admits
end Substitution
end TaggedHeader
