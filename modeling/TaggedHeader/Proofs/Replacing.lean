import Mathlib.Data.List.Forall2
import TaggedHeader.Proofs.Computation
import TaggedHeader.Proofs.Rebasing
import TaggedHeader.SourceText

/-!
# What a replacement does

A replacement succeeds exactly at the ranges that select a part of the text, and puts the new text in the
place of that part. What a region selects outside the replaced range is selected by the moved region too.

A run makes one replacement after another, each in the text that the one before it has left. What a single
replacement keeps, a run keeps by `Run.preserves`.
-/

namespace TaggedHeader

open Text

/-- Two related lists stay related when the relation changes for their members. -/
theorem forall₂_imp_of_mem {α β : Type} {R S : α → β → Prop} {left : List α} {right : List β}
    (h : List.Forall₂ R left right) (himp : ∀ a ∈ left, ∀ b ∈ right, R a b → S a b) :
    List.Forall₂ S left right := by
  obtain ⟨hlength, hget⟩ := List.forall₂_iff_get.mp h
  exact List.forall₂_iff_get.mpr ⟨hlength, fun i hi hi' =>
    himp _ (List.get_mem left ⟨i, hi⟩) _ (List.get_mem right ⟨i, hi'⟩) (hget i hi hi')⟩

/-- A run of steps, one for each substitution of a list in turn. The range of a substitution refers to the
state that it is made in. -/
inductive Run {σ : Type} (Step : σ → Substitution → σ → Prop) : σ → List Substitution → σ → Prop
  | nil (state : σ) : Run Step state [] state
  | cons {state next last : σ} {sub : Substitution} {subs : List Substitution} (hstep : Step state sub next)
    (hrest : Run Step next subs last) : Run Step state (sub :: subs) last

/-- What every step keeps is kept by a run. -/
theorem Run.preserves {σ : Type} {Step : σ → Substitution → σ → Prop} {P : σ → Prop}
    (hstep : ∀ {state sub next}, Step state sub next → P state → P next) {start last : σ}
    {subs : List Substitution} (h : Run Step start subs last) (hstart : P start) : P last := by
  induction h with
  | nil state => exact hstart
  | cons hfirst _ ih => exact ih (hstep hfirst hstart)

/-- An edit replaces a range that is not inverted. -/
theorem Edit.replacing_eq_ok_iff {range : Span} {inserted : Nat} {edit : Edit} :
    Edit.replacing range inserted = .ok edit ↔
      edit.start = range.start ∧ edit.stop = range.stop ∧ edit.inserted = inserted := by
  rw [Edit.replacing]
  constructor
  · intro h
    split at h
    · cases h
      exact ⟨rfl, rfl, rfl⟩
    · cases h
  · rintro ⟨hstart, hstop, rfl⟩
    rw [dif_pos (hstart ▸ hstop ▸ edit.ordered)]
    cases edit
    simp only at hstart hstop
    subst hstart hstop
    rfl

namespace SourceText

/-- A replacement of a range that selects something leads from one state to another. -/
def Replaces (source : SourceText) (sub : Substitution) (next : SourceText) : Prop :=
  ∃ edit, source.replace sub.span sub.text = .ok (edit, next)

variable {source next : SourceText} {range : Span} {replacement : Text} {edit : Edit}

/-- A replacement takes the text apart at its range and records the state it leaves. -/
theorem replace_eq_ok_iff : source.replace range replacement = .ok (edit, next) ↔
    ∃ before part after, source.current = before ++ part ++ after ∧ size before = range.start ∧
      size before + size part = range.stop ∧ edit.start = range.start ∧ edit.stop = range.stop ∧
      edit.inserted = size replacement ∧
      next = { source with
        current := before ++ replacement ++ after
        history := (source.current :: source.history).take maxHistory
        regions := source.regions.map (rebaseRegion edit)
        changes := source.changes + 1 } := by
  constructor
  · intro h
    unfold replace at h
    obtain ⟨made, hmade, h⟩ := bind_eq_ok_iff.mp h
    obtain ⟨first, hfirst, h⟩ := bind_eq_ok_iff.mp h
    obtain ⟨second, hsecond, h⟩ := bind_eq_ok_iff.mp h
    cases h
    have hranges := Edit.replacing_eq_ok_iff.mp hmade
    have hle : range.start ≤ range.stop := hranges.1 ▸ hranges.2.1 ▸ edit.ordered
    obtain ⟨hbefore, hstart⟩ := eq_append_of_cutAt hfirst
    obtain ⟨hafter, hstop⟩ := eq_append_of_cutAt hsecond
    obtain ⟨part, hpart, -⟩ := exists_append_of_size_le (hbefore.symm.trans hafter)
      (by rw [hstart, hstop]; exact hle)
    refine ⟨first.1, part, second.2, ?_, hstart, ?_, hranges.1, hranges.2.1, hranges.2.2, rfl⟩
    · rw [hafter, hpart]
    · rw [← hstop, hpart, size_append]
  · rintro ⟨before, part, after, hcurrent, hstart, hstop, heditStart, heditStop, hinserted, rfl⟩
    have hfirst : cutAt range.start source.current = .ok (before, part ++ after) := by
      rw [hcurrent, ← hstart, List.append_assoc, cutAt_append]
    have hsecond : cutAt range.stop source.current = .ok (before ++ part, after) := by
      rw [hcurrent, ← hstop, ← size_append, cutAt_append]
    have hedit := Edit.replacing_eq_ok_iff.mpr ⟨heditStart, heditStop, hinserted⟩
    simp only [replace, hedit, hfirst, hsecond, bind, Except.bind, pure, Except.pure]

/-- A replacement moves all regions along. -/
theorem regions_replace (h : source.replace range replacement = .ok (edit, next)) :
    next.regions = source.regions.map (rebaseRegion edit) := by
  obtain ⟨_, _, _, -, -, -, -, -, -, rfl⟩ := replace_eq_ok_iff.mp h
  rfl

/-- A replacement never fails at a range that selects something. -/
theorem exists_replace {part : Text} (h : Selects source.current range part) (replacement : Text) :
    ∃ edit next, source.replace range replacement = .ok (edit, next) := by
  obtain ⟨before, after, hcurrent, hstart, hstop⟩ := h
  have hle : range.start ≤ range.stop := hstart ▸ hstop ▸ Nat.le_add_right _ _
  exact ⟨⟨range.start, range.stop, size replacement, hle⟩, _,
    replace_eq_ok_iff.mpr ⟨before, part, after, hcurrent, hstart, hstop, rfl, rfl, rfl, rfl⟩⟩

/-- A region outside the replaced range selects the same part before and after. -/
theorem selects_mapRange (h : source.replace range replacement = .ok (edit, next)) {kept : Span}
    {part : Text} (hkept : Selects source.current kept part) (hapart : range.Apart kept) :
    Selects next.current (edit.mapRange kept) part := by
  obtain ⟨before, replaced, after, hcurrent, hstart, hstop, heditStart, heditStop, hinserted, rfl⟩ :=
    replace_eq_ok_iff.mp h
  have hordered := hkept.start_le_stop
  rw [hcurrent] at hkept
  rcases hapart with hbehind | hbefore
  · rw [← heditStop] at hbehind
    rw [Edit.mapRange_behind hbehind hordered]
    obtain ⟨left, right, htext, hleft, hright⟩ := hkept
    rw [List.append_assoc left] at htext
    obtain ⟨middle, rfl, rfl⟩ := exists_append_of_size_le htext
      (by rw [size_append, hstop, ← heditStop, hleft]; exact hbehind)
    refine ⟨before ++ replacement ++ middle, right, by simp, ?_, ?_⟩
    all_goals
      simp only [size_append, Edit.shift] at hleft hright ⊢
      omega
  · rw [← heditStart] at hbefore
    by_cases hlt : kept.start < edit.start
    · rw [Edit.mapRange_before hbefore hlt hordered]
      obtain ⟨left, right, htext, hleft, hright⟩ := hkept
      rw [List.append_assoc before] at htext
      obtain ⟨middle, rfl, -⟩ := exists_append_of_size_le htext.symm
        (by rw [size_append, hright, hstart, ← heditStart]; exact hbefore)
      exact ⟨left, middle ++ replacement ++ after, by simp, hleft, hright⟩
    · -- An empty region where the edit starts lands behind the inserted text.
      have hempty : kept = ⟨edit.start, edit.start⟩ := by
        cases kept
        simp only [Span.mk.injEq] at hbefore hlt hordered ⊢
        omega
      have hnone : part = [] := by
        obtain ⟨left, right, -, hleft, hright⟩ := hkept
        rw [hempty] at hleft hright
        simp only at hleft hright
        exact size_eq_zero.mp (by omega)
      rw [hempty, edit.mapRange_empty, hnone]
      refine ⟨before ++ replacement, after, by simp, ?_, ?_⟩
      all_goals
        simp only [size_append, size]
        omega

/-- The length of a text after a replacement. -/
theorem size_replace (h : source.replace range replacement = .ok (edit, next)) :
    edit.stop ≤ size source.current ∧
      size next.current = edit.start + edit.inserted + (size source.current - edit.stop) := by
  obtain ⟨before, part, after, hcurrent, hbefore, hpart, hstart, hstop, hinserted, rfl⟩ :=
    replace_eq_ok_iff.mp h
  rw [hcurrent]
  simp only [size_append]
  omega

section Boundaries

variable (h : source.replace range replacement = .ok (edit, next)) {position : Nat}
include h

/-- A position before the replaced part lies between characters as before. -/
theorem isBoundary_before (hposition : IsBoundary source.current position) (hle : position ≤ edit.start) :
    IsBoundary next.current position := by
  obtain ⟨before, part, after, hcurrent, hbefore, -, hstart, -, -, rfl⟩ := replace_eq_ok_iff.mp h
  obtain ⟨left, right, htext, rfl⟩ := hposition
  rw [hcurrent, List.append_assoc] at htext
  obtain ⟨middle, rfl, -⟩ := exists_append_of_size_le htext.symm (by omega)
  exact ⟨left, middle ++ replacement ++ after, by simp, rfl⟩

/-- A position behind the replaced part lies between characters where it has been moved. -/
theorem isBoundary_shift (hposition : IsBoundary source.current position) (hle : edit.stop ≤ position) :
    IsBoundary next.current (edit.shift position) := by
  obtain ⟨before, part, after, hcurrent, hbefore, hpart, hstart, hstop, hinserted, rfl⟩ :=
    replace_eq_ok_iff.mp h
  obtain ⟨left, right, htext, rfl⟩ := hposition
  rw [hcurrent] at htext
  obtain ⟨middle, rfl, rfl⟩ := exists_append_of_size_le htext (by rw [size_append]; omega)
  refine ⟨before ++ replacement ++ middle, right, by simp, ?_⟩
  simp only [size_append, Edit.shift]
  omega

/-- The place where the replaced part starts and the end of the new text lie between characters. -/
theorem isBoundary_edit : IsBoundary next.current edit.start ∧
    IsBoundary next.current (edit.start + edit.inserted) := by
  obtain ⟨before, part, after, -, hbefore, -, hstart, -, hinserted, rfl⟩ := replace_eq_ok_iff.mp h
  refine ⟨⟨before, replacement ++ after, by simp, by omega⟩, ⟨before ++ replacement, after, rfl, ?_⟩⟩
  rw [size_append]
  omega

/-- Moving a range keeps its ends between characters. -/
theorem isBoundary_mapRange (moved : Span) (hstart : IsBoundary source.current moved.start)
    (hstop : IsBoundary source.current moved.stop) :
    IsBoundary next.current (edit.mapRange moved).start ∧
      IsBoundary next.current (edit.mapRange moved).stop := by
  obtain ⟨hbegin, hend⟩ := isBoundary_edit h
  have hmapStart : IsBoundary next.current (edit.mapStart moved.start) := by
    rw [Edit.mapStart]
    split
    · exact isBoundary_shift h hstart ‹_›
    · split
      · exact hend
      · exact isBoundary_before h hstart (by omega)
  have hmapStop : IsBoundary next.current (edit.mapStop moved.stop) := by
    rw [Edit.mapStop]
    split
    · exact isBoundary_shift h hstop (by omega)
    · split
      · exact hbegin
      · exact isBoundary_before h hstop (by omega)
  refine ⟨hmapStart, ?_⟩
  simp only [Edit.mapRange]
  rcases Nat.le_total (edit.mapStop moved.stop) (edit.mapStart moved.start) with hle | hle
  · rwa [Nat.max_eq_right hle]
  · rwa [Nat.max_eq_left hle]

end Boundaries

end SourceText
end TaggedHeader
