import Mathlib.Data.List.Nodup
import Mathlib.Data.List.Perm.Subperm
import TaggedHeader.Proofs.Replacing
import TaggedHeader.Proofs.Text.Bytes

/-!
# Where the bytes of a region come from

A trace goes along with a text under revision: it says of each byte where it stood in the text as it was
given, or that a replacement inserted it. The interior of a region is moved by two rules that know nothing
of bytes. As long as no replacement cuts a hole into an interior, the moved interior nevertheless selects
exactly those bytes of the original one that are left; the induction is over the replacements of a run.
-/

namespace TaggedHeader

open Text

/-- A byte, and where it stood in the given text unless it was inserted. -/
structure TracedByte where
  byte : UInt8
  origin : Option Nat
deriving DecidableEq, Repr

namespace TracedByte

/-- The bytes of a text that nothing has changed. -/
def ofGiven (text : Text) : List TracedByte :=
  (bytes text).zipIdx.map fun (byte, index) => ⟨byte, some index⟩

/-- The bytes of a text that a replacement inserts. -/
def ofInserted (text : Text) : List TracedByte := (bytes text).map (⟨·, none⟩)

/-- The bytes after a replacement. -/
def replace (traced : List TracedByte) (sub : Substitution) : List TracedByte :=
  traced.take sub.span.start ++ ofInserted sub.text ++ traced.drop sub.span.stop

/-- The bytes after a run of replacements. -/
def afterRun (text : Text) (subs : List Substitution) : List TracedByte :=
  subs.foldl replace (ofGiven text)

/-- Whether a byte stood in a range of the given text. -/
def isFrom (range : Span) (item : TracedByte) : Bool :=
  item.origin.any fun index => range.start ≤ index && index < range.stop

end TracedByte

open TracedByte

/-- The items of a list in a range. -/
def Span.select {α : Type} (span : Span) (items : List α) : List α := (items.take span.stop).drop span.start

/-- The items in a range are those that have a property, if no others do. -/
theorem Span.select_eq_filter {α : Type} {span : Span} {items : List α} {p : α → Bool}
    (hle : span.start ≤ span.stop) (hfits : span.stop ≤ items.length)
    (h : ∀ (index : Nat) (hindex : index < items.length),
      p items[index] = true ↔ span.start ≤ index ∧ index < span.stop) :
    span.select items = items.filter p := by
  have hsplit : items = items.take span.start ++ span.select items ++ items.drop span.stop := by
    have hfront : items.take span.start = (items.take span.stop).take span.start := by
      rw [List.take_take, Nat.min_eq_left hle]
    rw [Span.select, hfront, List.take_append_drop, List.take_append_drop]
  have hbefore : (items.take span.start).filter p = [] := by
    refine List.filter_eq_nil_iff.mpr fun item hitem hp => ?_
    obtain ⟨index, hindex, rfl⟩ := List.mem_take_iff_getElem.mp hitem
    have := ((h index (by omega)).mp hp).1
    omega
  have hbehind : (items.drop span.stop).filter p = [] := by
    refine List.filter_eq_nil_iff.mpr fun item hitem hp => ?_
    obtain ⟨index, hindex, rfl⟩ := List.mem_drop_iff_getElem.mp hitem
    have := ((h (span.stop + index) (by omega)).mp hp).2
    omega
  have hinside : (span.select items).filter p = span.select items := by
    refine List.filter_eq_self.mpr fun item hitem => ?_
    obtain ⟨index, hindex, rfl⟩ := List.mem_drop_iff_getElem.mp hitem
    rw [List.length_take] at hindex
    rw [List.getElem_take]
    exact (h _ (by omega)).mpr (by omega)
  conv_rhs => rw [hsplit, List.filter_append, List.filter_append, hbefore, hbehind, hinside]
  simp

/-- Some items of a list without repetition, in their order, are those items that are among them. -/
theorem eq_filter_of_sublist {α : Type} [DecidableEq α] {chosen items : List α} (h : chosen.Sublist items)
    (hnodup : items.Nodup) : chosen = items.filter (· ∈ chosen) := by
  have hall : chosen.filter (· ∈ chosen) = chosen := by
    refine List.filter_eq_self.mpr fun item hitem => ?_
    simpa using hitem
  have hsublist : chosen.Sublist (items.filter (· ∈ chosen)) := by
    rw [← hall]
    simpa [hall] using h.filter (· ∈ chosen)
  have hsubset : items.filter (· ∈ chosen) ⊆ chosen := fun item hitem => by
    simpa using (List.mem_filter.mp hitem).2
  exact hsublist.eq_of_length_le (List.Nodup.subperm (hnodup.filter _) hsubset).length_le

namespace TracedByte

@[simp] theorem length_ofGiven (text : Text) : (ofGiven text).length = size text := by
  simp [ofGiven]

@[simp] theorem length_ofInserted (text : Text) : (ofInserted text).length = size text := by
  simp [ofInserted]

@[simp] theorem map_byte_ofGiven (text : Text) : (ofGiven text).map byte = bytes text := by
  rw [ofGiven, List.map_map]
  exact List.zipIdx_map_fst 0 _

@[simp] theorem map_byte_ofInserted (text : Text) : (ofInserted text).map byte = bytes text := by
  rw [ofInserted, List.map_map]
  exact List.map_id _

theorem origin_ofGiven {text : Text} {index : Nat} (hindex : index < (ofGiven text).length) :
    (ofGiven text)[index].origin = some index := by
  simp [ofGiven]

theorem origin_ofInserted {text : Text} {item : TracedByte} (h : item ∈ ofInserted text) :
    item.origin = none := by
  obtain ⟨byte, -, rfl⟩ := List.mem_map.mp h
  rfl

theorem ofGiven_nodup (text : Text) : (ofGiven text).Nodup := by
  refine List.nodup_iff_injective_get.mpr fun i j heq => ?_
  have horigin := congrArg origin heq
  rw [List.get_eq_getElem, List.get_eq_getElem, origin_ofGiven, origin_ofGiven] at horigin
  exact Fin.ext (Option.some.inj horigin)

/-- A replacement leaves what stands before its range, and moves what stands behind it. -/
theorem getElem?_replace {traced : List TracedByte} {sub : Substitution} (hle : sub.span.start ≤ traced.length)
    (index : Nat) : (replace traced sub)[index]? =
      if index < sub.span.start then traced[index]?
      else if index < sub.span.start + size sub.text then (ofInserted sub.text)[index - sub.span.start]?
      else traced[sub.span.stop + (index - (sub.span.start + size sub.text))]? := by
  rw [replace, List.append_assoc, List.getElem?_append, List.length_take, Nat.min_eq_left hle]
  split
  · rename_i hbefore
    rw [List.getElem?_take_of_lt hbefore]
  · rw [List.getElem?_append, length_ofInserted]
    split
    · rw [if_pos (by omega)]
    · rw [if_neg (by omega), List.getElem?_drop, Nat.sub_sub]

end TracedByte

/-- A range of the bytes as they are holds exactly those that stood in a range of the given text. -/
structure Span.SurvivesAs (given current : Span) (traced : List TracedByte) : Prop where
  start_le_stop : current.start ≤ current.stop
  stop_le_length : current.stop ≤ traced.length
  isFrom_iff : ∀ index : Nat, traced[index]?.any (TracedByte.isFrom given) = true ↔
    current.start ≤ index ∧ index < current.stop

namespace Span.SurvivesAs

variable {given current : Span} {traced : List TracedByte} {sub : Substitution} {edit : Edit}

/-- Every range of a text follows itself before any replacement. -/
theorem ofGiven {text : Text} (hle : given.start ≤ given.stop) (hfits : given.stop ≤ size text) :
    given.SurvivesAs given (TracedByte.ofGiven text) := by
  have hlength := length_ofGiven text
  refine ⟨hle, by omega, fun index => ?_⟩
  rcases Nat.lt_or_ge index (TracedByte.ofGiven text).length with hindex | hend
  · rw [List.getElem?_eq_getElem hindex, Option.any_some, TracedByte.isFrom, origin_ofGiven]
    simp
  · rw [List.getElem?_eq_none hend]
    simp only [Option.any_none, Bool.false_eq_true, false_iff]
    omega

/-- A replacement moves a range along that it does not cut a hole into. -/
theorem replace (h : given.SurvivesAs current traced) (hstart : edit.start = sub.span.start)
    (hstop : edit.stop = sub.span.stop) (hinserted : edit.inserted = size sub.text)
    (hfits : sub.span.stop ≤ traced.length)
    (hwhole : ¬ (current.start < sub.span.start ∧ sub.span.stop < current.stop)) :
    given.SurvivesAs (edit.mapRange current) (TracedByte.replace traced sub) := by
  have hordered := edit.ordered
  rw [← hstart, ← hstop] at hwhole
  refine ⟨edit.mapRange_start_le_stop current, ?_, fun index => ?_⟩
  · have hmoved := edit.mapRange_stop_le h.stop_le_length h.start_le_stop (hstop ▸ hfits)
    simp only [TracedByte.replace, List.length_append, List.length_take, List.length_drop, length_ofInserted]
    omega
  · rw [getElem?_replace (by omega), Edit.mem_mapRange_iff h.start_le_stop hwhole, hstart, hstop, hinserted]
    split
    · rw [h.isFrom_iff]
      omega
    · split
      · have hnone : (ofInserted sub.text)[index - sub.span.start]?.any (TracedByte.isFrom given) = false := by
          cases hitem : (ofInserted sub.text)[index - sub.span.start]? with
          | none => rfl
          | some item =>
            have horigin := origin_ofInserted (List.mem_of_getElem? hitem)
            rw [Option.any_some, TracedByte.isFrom, horigin, Option.any_none]
        rw [hnone]
        simp only [Bool.false_eq_true, false_iff]
        omega
      · rw [h.isFrom_iff]
        omega

/-- A range that follows another one selects the bytes that stood in it. -/
theorem select_eq_filter (h : given.SurvivesAs current traced) :
    current.select traced = traced.filter (TracedByte.isFrom given) := by
  refine Span.select_eq_filter h.start_le_stop h.stop_le_length fun index hindex => ?_
  rw [← h.isFrom_iff, List.getElem?_eq_getElem hindex, Option.any_some]

end Span.SurvivesAs

namespace SourceText

variable {text : Text} {regions : List Region} {source next last : SourceText} {sub : Substitution}
  {subs : List Substitution}

/-- A replacement that cuts no hole into the interior of a region. -/
def ReplacesWhole (source : SourceText) (sub : Substitution) (next : SourceText) : Prop :=
  (∀ region ∈ source.regions,
    ¬ (region.interior.start < sub.span.start ∧ sub.span.stop < region.interior.stop)) ∧
  source.Replaces sub next

/-- What is known of the bytes of a text under revision. -/
structure IsTraced (text : Text) (regions : List Region) (source : SourceText) (traced : List TracedByte) :
    Prop where
  bytes : traced.map byte = bytes source.current
  kept : (traced.filter (·.origin.isSome)).Sublist (ofGiven text)
  interiors : List.Forall₂ (fun given current : Region => given.interior.SurvivesAs current.interior traced)
    regions source.regions

namespace IsTraced

variable {traced : List TracedByte}

theorem ofText (h : ∀ region ∈ regions, region.interior.start ≤ region.interior.stop ∧
      region.interior.stop ≤ size text) : IsTraced text regions (.ofText text regions) (ofGiven text) where
  bytes := map_byte_ofGiven text
  kept := List.filter_sublist
  interiors := List.forall₂_same.mpr fun region hregion =>
    .ofGiven (h region hregion).1 (h region hregion).2

/-- One replacement. -/
theorem replace (h : IsTraced text regions source traced) (hstep : source.ReplacesWhole sub next) :
    IsTraced text regions next (TracedByte.replace traced sub) := by
  obtain ⟨hwhole, edit, hreplace⟩ := hstep
  have hregions := regions_replace hreplace
  obtain ⟨before, part, after, hcurrent, hbefore, hpart, hstart, hstop, hinserted, hnext⟩ :=
    replace_eq_ok_iff.mp hreplace
  have hle : sub.span.start ≤ sub.span.stop := by omega
  have hbytes := h.bytes
  rw [hcurrent, bytes_append, bytes_append] at hbytes
  have hbeforeLength : (Text.bytes before).length = sub.span.start := by rw [length_bytes, hbefore]
  have hpartLength : (Text.bytes before ++ Text.bytes part).length = sub.span.stop := by
    rw [List.length_append, length_bytes, length_bytes, hpart]
  have hlength : sub.span.stop ≤ traced.length := by
    rw [← List.length_map (f := byte), hbytes, List.length_append, hpartLength]
    exact Nat.le_add_right _ _
  constructor
  · have hfront : (traced.take sub.span.start).map byte = Text.bytes before := by
      rw [List.map_take, hbytes, List.append_assoc, List.take_left' hbeforeLength]
    have hback : (traced.drop sub.span.stop).map byte = Text.bytes after := by
      rw [List.map_drop, hbytes, List.drop_left' hpartLength]
    rw [TracedByte.replace, List.map_append, List.map_append, hfront, hback, map_byte_ofInserted, hnext,
      bytes_append, bytes_append]
  · have hnone : (ofInserted sub.text).filter (·.origin.isSome) = [] := by
      refine List.filter_eq_nil_iff.mpr fun item hitem => ?_
      rw [origin_ofInserted hitem]
      simp
    have hless : (traced.take sub.span.start ++ traced.drop sub.span.stop).Sublist traced := by
      have hback := (List.drop_sublist_drop_left traced hle).append_left (traced.take sub.span.start)
      rwa [List.take_append_drop] at hback
    rw [TracedByte.replace, List.filter_append, List.filter_append, hnone, List.append_nil,
      ← List.filter_append]
    exact (hless.filter _).trans h.kept
  · rw [hregions, List.forall₂_map_right_iff]
    exact forall₂_imp_of_mem h.interiors fun given _ current hmem hsurvives =>
      hsurvives.replace hstart hstop hinserted hlength (hwhole current hmem)

/-- A run of replacements. -/
theorem run (h : IsTraced text regions source traced) (hrun : Run ReplacesWhole source subs last) :
    IsTraced text regions last (subs.foldl TracedByte.replace traced) := by
  induction hrun generalizing traced with
  | nil source => exact h
  | cons hstep _ ih => exact ih (h.replace hstep)

/-- What a region selects after a run is what is left of its original interior. -/
theorem select_interior (h : IsTraced text regions source traced) {given current : Region}
    (hsurvives : given.interior.SurvivesAs current.interior traced)
    (horiginal : given.interior.SurvivesAs given.interior (ofGiven text)) :
    current.interior.select traced = (given.interior.select (ofGiven text)).filter (· ∈ traced) := by
  have hsome : ∀ item : TracedByte, item.isFrom given.interior = true → item.origin.isSome = true := by
    intro item hfrom
    cases horigin : item.origin with
    | none => simp [isFrom, horigin] at hfrom
    | some index => rfl
  have hsublist : (traced.filter (isFrom given.interior)).Sublist (ofGiven text) := by
    have hfilter : traced.filter (isFrom given.interior) =
        (traced.filter (·.origin.isSome)).filter (isFrom given.interior) := by
      rw [List.filter_filter]
      refine List.filter_congr fun item _ => ?_
      rw [Bool.eq_iff_iff, Bool.and_eq_true]
      exact ⟨fun hfrom => ⟨hfrom, hsome item hfrom⟩, And.left⟩
    rw [hfilter]
    exact List.filter_sublist.trans h.kept
  rw [hsurvives.select_eq_filter, horiginal.select_eq_filter,
    eq_filter_of_sublist hsublist (ofGiven_nodup text), List.filter_filter]
  apply List.filter_congr
  intro item _
  simp

end IsTraced

/-- The interiors of regions are not inverted, and stand in order. -/
structure HasOrderedInteriors (source : SourceText) : Prop where
  start_le_stop : ∀ region ∈ source.regions, region.interior.start ≤ region.interior.stop
  ordered : source.regions.Pairwise fun left right => left.interior.stop ≤ right.interior.start

/-- Any replacement keeps interiors in order. -/
theorem HasOrderedInteriors.replaces (h : source.HasOrderedInteriors) (hstep : source.Replaces sub next) :
    next.HasOrderedInteriors := by
  obtain ⟨edit, hreplace⟩ := hstep
  have hregions := regions_replace hreplace
  constructor
  · rw [hregions]
    intro region hregion
    obtain ⟨before, -, rfl⟩ := List.mem_map.mp hregion
    exact edit.mapRange_start_le_stop _
  · rw [hregions, List.pairwise_map]
    exact h.ordered.imp_of_mem fun {left right} hleft _ hle =>
      edit.mapRange_ordered (h.start_le_stop left hleft) hle

end SourceText

open SourceText

/-- Regions are moved exactly, over any run of replacements.

Take a run of replacements of which none cuts a hole into the interior of a region. Each interior is then a
range of the text that the run leaves, and selects just those bytes of the original interior that no
replacement deleted, in their order and without any inserted byte. Interiors in order stay in order whatever
the replacements are. -/
theorem interiors_select_survivors {text : Text} {regions : List Region}
    (h : ∀ region ∈ regions, region.interior.start ≤ region.interior.stop ∧
      region.interior.stop ≤ size text) :
    (∀ subs last, Run ReplacesWhole (.ofText text regions) subs last →
      (afterRun text subs).map byte = bytes last.current ∧ last.regions.length = regions.length ∧
      ∀ (index : Nat) (given current : Region), regions[index]? = some given →
        last.regions[index]? = some current →
          current.interior.start ≤ current.interior.stop ∧ current.interior.stop ≤ size last.current ∧
          current.interior.select (afterRun text subs) =
            (given.interior.select (ofGiven text)).filter (· ∈ afterRun text subs)) ∧
    ∀ source subs last, Run Replaces source subs last → source.HasOrderedInteriors →
      last.HasOrderedInteriors := by
  refine ⟨fun subs last hrun => ?_, fun source subs last hrun hordered =>
    hrun.preserves (fun hstep hinteriors => hinteriors.replaces hstep) hordered⟩
  have htraced := (IsTraced.ofText h).run hrun
  have hlength : (afterRun text subs).length = size last.current := by
    rw [← length_bytes, ← htraced.bytes, List.length_map]
    rfl
  refine ⟨htraced.bytes, htraced.interiors.length_eq.symm, fun index given current hgiven hcurrent => ?_⟩
  obtain ⟨hindex, rfl⟩ := List.getElem?_eq_some_iff.mp hgiven
  obtain ⟨hindex', rfl⟩ := List.getElem?_eq_some_iff.mp hcurrent
  have hsurvives := htraced.interiors.get hindex hindex'
  obtain ⟨hle, hfits⟩ := h _ (List.getElem_mem hindex)
  exact ⟨hsurvives.start_le_stop, hlength ▸ hsurvives.stop_le_length,
    htraced.select_interior hsurvives (.ofGiven hle hfits)⟩

/-- A text with a region, and two replacements of it: one that reaches into the interior of the region, and an
insertion at its end. -/
def reachedText : SourceText := .ofText "abcdef".toList [⟨.literal, ⟨0, 6⟩, ⟨1, 4⟩⟩]

def reachingEdits : List Substitution := [⟨⟨0, 2⟩, "xyz".toList⟩, ⟨⟨5, 5⟩, "!".toList⟩]

theorem interiors_select_survivors_reachedText : ∃ last, Run ReplacesWhole reachedText reachingEdits last ∧
    last.current = "xyzcd!ef".toList ∧ last.regions = [⟨.literal, ⟨3, 8⟩, ⟨3, 5⟩⟩] ∧
    ((⟨3, 5⟩ : Span).select (afterRun "abcdef".toList reachingEdits)).map byte = bytes "cd".toList := by
  have hfits : ∀ region ∈ reachedText.regions, region.interior.start ≤ region.interior.stop ∧
      region.interior.stop ≤ size "abcdef".toList := by decide
  have hrun : Run ReplacesWhole reachedText reachingEdits _ :=
    .cons ⟨by decide, ⟨0, 2, 3, by decide⟩, rfl⟩ (.cons ⟨by decide, ⟨5, 5, 1, by decide⟩, rfl⟩ (.nil _))
  obtain ⟨-, -, hselect⟩ := (interiors_select_survivors hfits).1 reachingEdits _ hrun
  obtain ⟨-, -, hinterior⟩ := hselect 0 _ ⟨.literal, ⟨3, 8⟩, ⟨3, 5⟩⟩ rfl rfl
  refine ⟨_, hrun, rfl, rfl, ?_⟩
  rw [hinterior]
  decide +kernel

end TaggedHeader
