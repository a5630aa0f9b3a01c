import Mathlib.Data.List.Pairwise
import TaggedHeader.Proofs.Text.Selection

/-!
# Substituting many parts of a text at once

A sweep goes over a text once, from left to right. It writes the text of a substitution where its range
starts, leaves out the characters of the range and copies all other characters. Ranges refer to the text as
it is given, so the order of the substitutions does not matter.

One more substitution changes the result only in its own range: `sweep_cons_of_selects` splits the result of
the sweep at that range, and `place` says where a position of the given text ends up. This is what an edit
of the result has to agree with.
-/

namespace TaggedHeader

open Text

/-- A range of a text, and the text that takes its place. -/
structure Substitution where
  span : Span
  text : Text
deriving DecidableEq, Repr

namespace Substitution

/-- Whether the character that starts at byte `offset` is replaced. -/
def covers (sub : Substitution) (offset : Nat) : Bool :=
  sub.span.start ≤ offset && offset < sub.span.stop

/-- What a sweep writes when it comes to the character `c` at byte `offset`. -/
def written (subs : List Substitution) (offset : Nat) (c : Char) : Text :=
  ((subs.find? (·.span.start == offset)).map Substitution.text).getD [] ++
    if subs.any (·.covers offset) then [] else [c]

/-- One pass over a text that itself starts at byte `offset`, with all substitutions made. -/
def sweep (subs : List Substitution) : (offset : Nat) → Text → Text
  | _, [] => []
  | offset, c :: rest => written subs offset c ++ sweep subs (offset + c.utf8Size) rest

/-- The range of a substitution has bytes, and lies between characters of the text. -/
structure FitsIn (text : Text) (sub : Substitution) : Prop where
  isBoundary_start : IsBoundary text sub.span.start
  isBoundary_stop : IsBoundary text sub.span.stop
  start_lt_stop : sub.span.start < sub.span.stop

/-- No substitution touches a range. -/
def Spare (subs : List Substitution) (span : Span) : Prop :=
  ∀ sub ∈ subs, sub.span.Apart span

variable {subs : List Substitution} {new : Substitution} {text : Text}

/-- Substitutions that leave a range alone leave its parts alone. -/
theorem Spare.of_encloses {span span' : Span} (h : Spare subs span)
    (hle : span.start ≤ span'.start ∧ span'.stop ≤ span.stop) : Spare subs span' :=
  fun sub hsub => (h sub hsub).of_encloses ⟨Nat.le_refl _, Nat.le_refl _⟩ hle

/-- The range of a substitution selects a part of the text that is not empty. -/
theorem FitsIn.exists_selects (h : new.FitsIn text) : ∃ part, Selects text new.span part ∧ part ≠ [] := by
  obtain ⟨part, hpart⟩ := h.isBoundary_start.selects h.isBoundary_stop (Nat.le_of_lt h.start_lt_stop)
  exact ⟨part, hpart, hpart.ne_nil h.start_lt_stop⟩

/-- A sweep over two parts of a text sweeps over one after the other. -/
theorem sweep_append (subs : List Substitution) (offset : Nat) (left right : Text) :
    sweep subs offset (left ++ right) =
      sweep subs offset left ++ sweep subs (offset + size left) right := by
  induction left generalizing offset with
  | nil => simp [sweep, size]
  | cons c rest ih => simp [sweep, size, ih, Nat.add_assoc]

/-- Without substitutions a text stays as it is. -/
theorem sweep_nil (offset : Nat) (text : Text) : sweep [] offset text = text := by
  induction text generalizing offset with
  | nil => rfl
  | cons c rest ih => simp [sweep, written, ih]

/-- Substitutions that share no byte start at different bytes. -/
theorem eq_of_start_eq (hlt : ∀ sub ∈ subs, sub.span.start < sub.span.stop)
    (hapart : subs.Pairwise fun first second => first.span.Apart second.span) {first second : Substitution}
    (hfirst : first ∈ subs) (hsecond : second ∈ subs) (hstart : first.span.start = second.span.start) :
    first = second := by
  by_contra hne
  have hsymm : Std.Symm fun first second : Substitution => first.span.Apart second.span :=
    ⟨fun _ _ => Span.Apart.symm⟩
  have hdisjoint := hapart.forall hfirst hsecond hne
  have hltFirst := hlt first hfirst
  have hltSecond := hlt second hsecond
  simp only [Span.Apart] at hdisjoint
  omega

/-- A sweep depends on which substitutions are made, but not on their order. -/
theorem sweep_congr {subs' : List Substitution} (hmem : ∀ sub, sub ∈ subs ↔ sub ∈ subs')
    (hlt : ∀ sub ∈ subs, sub.span.start < sub.span.stop)
    (hapart : subs.Pairwise fun first second => first.span.Apart second.span) (offset : Nat) (text : Text) :
    sweep subs offset text = sweep subs' offset text := by
  have hwritten : ∀ offset c, written subs offset c = written subs' offset c := by
    intro offset c
    have hcovers : subs.any (·.covers offset) = subs'.any (·.covers offset) := by
      rw [Bool.eq_iff_iff, List.any_eq_true, List.any_eq_true]
      exact exists_congr fun sub => and_congr_left fun _ => hmem sub
    have hfind : subs.find? (·.span.start == offset) = subs'.find? (·.span.start == offset) := by
      cases hfirst : subs.find? (·.span.start == offset) with
      | none =>
        rw [eq_comm, List.find?_eq_none]
        exact fun sub hsub => List.find?_eq_none.mp hfirst sub ((hmem sub).mpr hsub)
      | some first =>
        cases hsecond : subs'.find? (·.span.start == offset) with
        | none =>
          have hmember := (hmem first).mp (List.mem_of_find?_eq_some hfirst)
          exact absurd (List.find?_some hfirst) (List.find?_eq_none.mp hsecond first hmember)
        | some second =>
          have hfirstStart := List.find?_some hfirst
          have hsecondStart := List.find?_some hsecond
          rw [beq_iff_eq] at hfirstStart hsecondStart
          rw [eq_of_start_eq hlt hapart (List.mem_of_find?_eq_some hfirst)
            ((hmem second).mpr (List.mem_of_find?_eq_some hsecond)) (hfirstStart.trans hsecondStart.symm)]
    rw [written, written, hcovers, hfind]
  induction text generalizing offset with
  | nil => rfl
  | cons c rest ih => rw [sweep, sweep, hwritten, ih]

/-- A substitution has no effect on the characters outside its range. -/
theorem written_cons_of_not_covers (hlt : new.span.start < new.span.stop) {offset : Nat}
    (h : new.covers offset = false) (c : Char) :
    written (new :: subs) offset c = written subs offset c := by
  have hstart : new.span.start ≠ offset := by
    rintro rfl
    simp [covers, hlt] at h
  simp [written, h, hstart]

/-- A substitution has no effect on a part of the text outside its range. -/
theorem sweep_cons_of_apart (hlt : new.span.start < new.span.stop) {offset : Nat} {text : Text}
    (h : new.span.Apart ⟨offset, offset + size text⟩) :
    sweep (new :: subs) offset text = sweep subs offset text := by
  induction text generalizing offset with
  | nil => rfl
  | cons c rest ih =>
    have hpos := c.utf8Size_pos
    simp only [Span.Apart, size] at h
    have hcovers : new.covers offset = false := by
      simp only [covers, Bool.and_eq_false_iff, decide_eq_false_iff_not]
      omega
    have hrest : new.span.Apart ⟨offset + c.utf8Size, offset + c.utf8Size + size rest⟩ := by
      simp only [Span.Apart]
      omega
    rw [sweep, sweep, written_cons_of_not_covers hlt hcovers, ih hrest]

/-- A part of the text that no substitution touches is copied. -/
theorem sweep_of_spare {offset : Nat} {text : Text} (hfits : ∀ sub ∈ subs, sub.span.start < sub.span.stop)
    (hspare : Spare subs ⟨offset, offset + size text⟩) : sweep subs offset text = text := by
  induction subs with
  | nil => exact sweep_nil offset text
  | cons new subs ih =>
    rw [sweep_cons_of_apart (hfits new List.mem_cons_self) (hspare new List.mem_cons_self)]
    exact ih (fun sub h => hfits sub (List.mem_cons_of_mem _ h))
      (fun sub h => hspare sub (List.mem_cons_of_mem _ h))

/-- The characters of a range behind its first one are left out. -/
theorem sweep_cons_of_covers {offset : Nat} {text : Text} (hstart : new.span.start < offset)
    (hstop : offset + size text ≤ new.span.stop) (hfits : ∀ sub ∈ subs, sub.span.start < sub.span.stop)
    (hspare : Spare subs new.span) : sweep (new :: subs) offset text = [] := by
  induction text generalizing offset with
  | nil => rfl
  | cons c rest ih =>
    have hpos := c.utf8Size_pos
    simp only [size] at hstop
    have hcovers : new.covers offset = true := by
      simp only [covers, Bool.and_eq_true, decide_eq_true_eq]
      omega
    have hfind : subs.find? (·.span.start == offset) = none := by
      refine List.find?_eq_none.mpr fun sub hsub heq => ?_
      have hlt := hfits sub hsub
      have hapart := hspare sub hsub
      rw [beq_iff_eq] at heq
      simp only [Span.Apart] at hapart
      omega
    have hne : (new.span.start == offset) = false := by
      rw [beq_eq_false_iff_ne]
      omega
    have hwritten : written (new :: subs) offset c = [] := by
      simp [written, hne, hfind, hcovers]
    rw [sweep, hwritten, ih (by omega) (by omega)]
    rfl

/-- A range is replaced by the text of its substitution. -/
theorem sweep_cons_self {offset : Nat} {text : Text} (htext : text ≠ [])
    (hspan : new.span = ⟨offset, offset + size text⟩)
    (hfits : ∀ sub ∈ subs, sub.span.start < sub.span.stop) (hspare : Spare subs new.span) :
    sweep (new :: subs) offset text = new.text := by
  cases text with
  | nil => exact absurd rfl htext
  | cons c rest =>
    have hpos := c.utf8Size_pos
    have hstart : new.span.start = offset := by rw [hspan]
    have hstop : new.span.stop = offset + (c.utf8Size + size rest) := by rw [hspan]; rfl
    have hcovers : new.covers offset = true := by
      simp only [covers, Bool.and_eq_true, decide_eq_true_eq]
      omega
    have hwritten : written (new :: subs) offset c = new.text := by
      simp [written, hstart, hcovers]
    rw [sweep, hwritten, sweep_cons_of_covers (by omega) (by omega) hfits hspare, List.append_nil]

/-- Where a position of the text ends up: behind all that the sweep has written before it. -/
def place (subs : List Substitution) (text : Text) (position : Nat) : Nat :=
  size (sweep subs 0 (upTo position text))

/-- Where a range of the text ends up. -/
def placeSpan (subs : List Substitution) (text : Text) (span : Span) : Span :=
  ⟨place subs text span.start, place subs text span.stop⟩

theorem place_append (subs : List Substitution) (before after : Text) :
    place subs (before ++ after) (size before) = size (sweep subs 0 before) := by
  rw [place, upTo_append]

/-- Without substitutions every position stays. -/
theorem place_nil {position : Nat} (h : IsBoundary text position) : place [] text position = position := by
  obtain ⟨before, after, rfl, rfl⟩ := h
  rw [place_append, sweep_nil]

/-- Positions stay in order. -/
theorem place_mono (subs : List Substitution) {start stop : Nat} (hstart : IsBoundary text start)
    (hstop : IsBoundary text stop) (hle : start ≤ stop) : place subs text start ≤ place subs text stop := by
  obtain ⟨part, before, after, rfl, hbefore, hpart⟩ := hstart.selects hstop hle
  simp only at hbefore hpart
  rw [← hpart, ← hbefore, ← size_append, place_append, List.append_assoc, place_append, sweep_append,
    size_append]
  exact Nat.le_add_right _ _

/-- The result of a sweep, taken apart at a range that no substitution touches. -/
theorem sweep_of_selects {before part : Text} (after : Text)
    (hfits : ∀ sub ∈ subs, sub.span.start < sub.span.stop)
    (hspare : Spare subs ⟨size before, size before + size part⟩) :
    sweep subs 0 (before ++ part ++ after) =
      sweep subs 0 before ++ part ++ sweep subs (size before + size part) after := by
  have hcopied := sweep_of_spare hfits hspare
  rw [sweep_append, sweep_append, Nat.zero_add, Nat.zero_add, hcopied, size_append]

/-- A range that no substitution touches selects the same part in the result. -/
theorem selects_placeSpan {span : Span} {part : Text} (h : Selects text span part)
    (hfits : ∀ sub ∈ subs, sub.span.start < sub.span.stop) (hspare : Spare subs span) :
    Selects (sweep subs 0 text) (placeSpan subs text span) part := by
  obtain ⟨start, stop⟩ := span
  obtain ⟨before, after, rfl, rfl, rfl⟩ := h
  refine ⟨sweep subs 0 before, _, sweep_of_selects _ hfits hspare, ?_, ?_⟩
  · rw [placeSpan, List.append_assoc, place_append]
  · have hcopied := sweep_of_spare hfits hspare
    simp only [placeSpan]
    rw [← size_append before part, place_append, sweep_append, Nat.zero_add, hcopied, size_append]

/-- Positions around bytes that no substitution touches stay distinct. -/
theorem place_lt {start stop : Nat} (hstart : IsBoundary text start) (hstop : IsBoundary text stop)
    (hlt : start < stop) (hfits : ∀ sub ∈ subs, sub.span.start < sub.span.stop)
    (hspare : Spare subs ⟨start, stop⟩) : place subs text start < place subs text stop := by
  obtain ⟨part, hpart⟩ := hstart.selects hstop (Nat.le_of_lt hlt)
  exact (selects_placeSpan hpart hfits hspare).start_lt_stop (hpart.ne_nil hlt)

/-- One more substitution replaces its range in the result, and nothing else. -/
theorem sweep_cons_of_selects {before part after : Text} (hpart : part ≠ [])
    (hspan : new.span = ⟨size before, size before + size part⟩)
    (hfits : ∀ sub ∈ subs, sub.span.start < sub.span.stop) (hspare : Spare subs new.span) :
    sweep (new :: subs) 0 (before ++ part ++ after) =
      sweep subs 0 before ++ new.text ++ sweep subs (size before + size part) after := by
  have hpos := size_pos hpart
  have hlt : new.span.start < new.span.stop := by rw [hspan]; exact Nat.lt_add_of_pos_right hpos
  have hbefore : sweep (new :: subs) 0 before = sweep subs 0 before :=
    sweep_cons_of_apart hlt (.inr (by rw [hspan]; exact Nat.le_of_eq (Nat.zero_add _)))
  have hafter : sweep (new :: subs) (size before + size part) after =
      sweep subs (size before + size part) after :=
    sweep_cons_of_apart hlt (.inl (Nat.le_of_eq (by rw [hspan])))
  rw [sweep_append, sweep_append, Nat.zero_add, Nat.zero_add, size_append, hbefore, hafter,
    sweep_cons_self hpart hspan hfits hspare]

/-- A substitution does not move the positions before it. -/
theorem place_cons_of_le (hnew : new.FitsIn text) {position : Nat} (hposition : IsBoundary text position)
    (hle : position ≤ new.span.start) : place (new :: subs) text position = place subs text position := by
  obtain ⟨before, after, rfl, rfl⟩ := hposition
  rw [place_append, place_append, sweep_cons_of_apart hnew.start_lt_stop]
  exact .inr (by simpa using hle)

/-- A substitution moves the positions behind it by what it adds and takes away. -/
theorem place_cons_of_ge (hnew : new.FitsIn text) {position : Nat} (hposition : IsBoundary text position)
    (hle : new.span.stop ≤ position) (hfits : ∀ sub ∈ subs, sub.span.start < sub.span.stop)
    (hspare : Spare subs new.span) :
    place (new :: subs) text position + (place subs text new.span.stop - place subs text new.span.start) =
      place subs text position + size new.text := by
  obtain ⟨part, hpart, hnonempty⟩ := hnew.exists_selects
  have hplaced := selects_placeSpan hpart hfits hspare
  have hlength : place subs text new.span.stop - place subs text new.span.start = size part := by
    obtain ⟨before, after, -, hstart, hstop⟩ := hplaced
    simp only [placeSpan] at hstart hstop
    omega
  obtain ⟨before, after, htext, hstart, hstop⟩ := hpart
  have hspan : new.span = ⟨size before, size before + size part⟩ := by rw [hstop, hstart]
  obtain ⟨left, right, htext', rfl⟩ := hposition
  obtain ⟨middle, rfl, rfl⟩ := exists_append_of_size_le (htext.symm.trans htext')
    (by rw [size_append, hstop]; exact hle)
  rw [hlength, htext', place_append, place_append, sweep_of_selects _ hfits (hspan ▸ hspare),
    sweep_cons_of_selects hnonempty hspan hfits hspare]
  simp only [size_append]
  omega

/-- The positions of a deleted range all end up where the range starts. -/
theorem place_cons_of_within (hnew : new.FitsIn text) (hcut : new.text = []) {position : Nat}
    (hposition : IsBoundary text position) (hstart : new.span.start ≤ position)
    (hstop : position ≤ new.span.stop) (hfits : ∀ sub ∈ subs, sub.span.start < sub.span.stop)
    (hspare : Spare subs new.span) : place (new :: subs) text position = place subs text new.span.start := by
  have hplaceStart : place (new :: subs) text new.span.start = place subs text new.span.start :=
    place_cons_of_le hnew hnew.isBoundary_start (Nat.le_refl _)
  have hplaceStop := place_cons_of_ge hnew hnew.isBoundary_stop (Nat.le_refl _) hfits hspare
  have hmono := place_mono subs hnew.isBoundary_start hnew.isBoundary_stop (Nat.le_of_lt hnew.start_lt_stop)
  have hlow := place_mono (new :: subs) hnew.isBoundary_start hposition hstart
  have hhigh := place_mono (new :: subs) hposition hnew.isBoundary_stop hstop
  rw [hcut, size] at hplaceStop
  omega

/-- One more substitution by a text that is not empty keeps distinct positions distinct, and equal ones equal. -/
theorem place_lt_cons_iff (hnew : new.FitsIn text) (htext : new.text ≠ []) {first second : Nat}
    (hfirst : IsBoundary text first) (hsecond : IsBoundary text second) (hle : first ≤ second)
    (hclear : new.span.stop ≤ first ∨ first ≤ new.span.start)
    (hclear' : new.span.stop ≤ second ∨ second ≤ new.span.start)
    (hfits : ∀ sub ∈ subs, sub.span.start < sub.span.stop) (hspare : Spare subs new.span) :
    place (new :: subs) text first < place (new :: subs) text second ↔
      place subs text first < place subs text second := by
  have hpos := size_pos htext
  have hbytes := place_lt hnew.isBoundary_start hnew.isBoundary_stop hnew.start_lt_stop hfits hspare
  rcases hclear' with hbehind' | hbefore'
  · have hmoved' := place_cons_of_ge hnew hsecond hbehind' hfits hspare
    have hmono' := place_mono subs hnew.isBoundary_stop hsecond hbehind'
    rcases hclear with hbehind | hbefore
    · have hmoved := place_cons_of_ge hnew hfirst hbehind hfits hspare
      omega
    · have hmoved : place (new :: subs) text first = place subs text first :=
        place_cons_of_le hnew hfirst hbefore
      have hmono := place_mono subs hfirst hnew.isBoundary_start hbefore
      omega
  · rw [place_cons_of_le hnew hsecond hbefore', place_cons_of_le hnew hfirst (Nat.le_trans hle hbefore')]

/-- Further substitutions by texts that are not empty keep equal positions equal, and distinct ones distinct. -/
theorem place_eq_append_iff {more : List Substitution} (hfits : ∀ sub ∈ more ++ subs, sub.FitsIn text)
    (hapart : (more ++ subs).Pairwise fun first second => first.span.Apart second.span)
    {first second : Nat} (hfirst : IsBoundary text first) (hsecond : IsBoundary text second)
    (hclear : ∀ sub ∈ more, sub.text ≠ [] ∧ (sub.span.stop ≤ first ∨ first ≤ sub.span.start) ∧
      (sub.span.stop ≤ second ∨ second ≤ sub.span.start)) :
    place (more ++ subs) text first = place (more ++ subs) text second ↔
      place subs text first = place subs text second := by
  induction more with
  | nil => exact Iff.rfl
  | cons new more ih =>
    rw [List.cons_append, List.forall_mem_cons] at hfits
    rw [List.cons_append, List.pairwise_cons] at hapart
    obtain ⟨⟨htext, hclearFirst, hclearSecond⟩, hclear⟩ := List.forall_mem_cons.mp hclear
    obtain ⟨hnew, hfits⟩ := hfits
    have hlt : ∀ sub ∈ more ++ subs, sub.span.start < sub.span.stop := fun sub hsub =>
      (hfits sub hsub).start_lt_stop
    have hspare : Spare (more ++ subs) new.span := fun sub hsub => (hapart.1 sub hsub).symm
    rw [List.cons_append, ← ih hfits hapart.2 hclear]
    rcases Nat.le_total first second with hle | hle
    · have hiff := place_lt_cons_iff hnew htext hfirst hsecond hle hclearFirst hclearSecond hlt hspare
      have hmono := place_mono (new :: (more ++ subs)) hfirst hsecond hle
      have hmono' := place_mono (more ++ subs) hfirst hsecond hle
      omega
    · have hiff := place_lt_cons_iff hnew htext hsecond hfirst hle hclearSecond hclearFirst hlt hspare
      have hmono := place_mono (new :: (more ++ subs)) hsecond hfirst hle
      have hmono' := place_mono (more ++ subs) hsecond hfirst hle
      omega

/-- Where positions end up depends on which substitutions are made, but not on their order. -/
theorem place_perm {subs' : List Substitution} (hperm : subs.Perm subs')
    (hfits : ∀ sub ∈ subs, sub.span.start < sub.span.stop)
    (hapart : subs.Pairwise fun first second => first.span.Apart second.span) (text : Text) :
    place subs text = place subs' text := by
  funext position
  rw [place, place, sweep_congr (fun _ => hperm.mem_iff) hfits hapart]

/-- The positions of a deleted range end up at one place. -/
theorem place_eq_of_cut {cut : Substitution} (hmem : cut ∈ subs) (hcut : cut.text = [])
    (hfits : ∀ sub ∈ subs, sub.FitsIn text)
    (hapart : subs.Pairwise fun first second => first.span.Apart second.span) {position : Nat}
    (hposition : IsBoundary text position) (hstart : cut.span.start ≤ position)
    (hstop : position ≤ cut.span.stop) : place subs text position = place subs text cut.span.start := by
  have hperm := List.perm_cons_erase hmem
  have hlt : ∀ sub ∈ subs, sub.span.start < sub.span.stop := fun sub hsub => (hfits sub hsub).start_lt_stop
  have hothers := hperm.pairwise hapart Span.Apart.symm
  rw [List.pairwise_cons] at hothers
  have hspare : Spare (subs.erase cut) cut.span := fun sub hsub => (hothers.1 sub hsub).symm
  have hwithin : ∀ {position}, IsBoundary text position → cut.span.start ≤ position →
      position ≤ cut.span.stop → place subs text position = place (subs.erase cut) text cut.span.start :=
    fun hposition hstart hstop => by
      rw [place_perm hperm hlt hapart]
      exact place_cons_of_within (hfits cut hmem) hcut hposition hstart hstop
        (fun sub hsub => hlt sub (List.mem_of_mem_erase hsub)) hspare
  have hwhole := hfits cut hmem
  rw [hwithin hposition hstart hstop,
    hwithin hwhole.isBoundary_start (Nat.le_refl _) (Nat.le_of_lt hwhole.start_lt_stop)]

end Substitution
end TaggedHeader
