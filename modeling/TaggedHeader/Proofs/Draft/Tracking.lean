import TaggedHeader.Proofs.Draft.Steps
import TaggedHeader.Proofs.Tag.Spelling

/-!
# Pending tags keep track of their text

Whatever is edited, a tag that is still pending spans just the part of the text that it was found with. A
tag has bytes of its own, so it moves like a region outside the edit, and the first edit that reaches into
it gives it up. A run of edits repeats this; each of its edits is given in the text as it is then.
-/

namespace TaggedHeader

open Text

/-- An edit moves a range with bytes of its own like a region, or gives it up when it reaches into it. -/
theorem Edit.mapSpan_eq (edit : Edit) {span : Span} (hlt : span.start < span.stop) : edit.mapSpan span =
    .ok (if (⟨edit.start, edit.stop⟩ : Span).Apart span then some (edit.mapRange span) else none) := by
  have hordered := edit.ordered
  by_cases hbefore : span.stop ≤ edit.start
  · rw [mapSpan, if_pos hbefore, if_pos (.inr hbefore), mapRange_before hbefore (by omega) (by omega)]
  · by_cases hbehind : edit.stop ≤ span.start
    · rw [mapSpan, if_neg hbefore, if_pos hbehind, if_neg (by omega), if_pos (.inl hbehind),
        mapRange_behind hbehind (by omega)]
    · have hmeets : ¬ (⟨edit.start, edit.stop⟩ : Span).Apart span := fun hapart =>
        hapart.elim hbehind hbefore
      rw [mapSpan, if_neg hbefore, if_neg hbehind, if_neg hmeets]

/-- A pending tag after an edit, unless the edit reaches into it. -/
def Tag.moved? (edit : Edit) (tag : Tag) : Option Tag :=
  if (⟨edit.start, edit.stop⟩ : Span).Apart tag.span then
    some { tag with span := edit.mapRange tag.span }
  else none

theorem Tag.moved?_eq_some_iff {edit : Edit} {tag moved : Tag} : tag.moved? edit = some moved ↔
    (⟨edit.start, edit.stop⟩ : Span).Apart tag.span ∧ { tag with span := edit.mapRange tag.span } = moved := by
  rw [Tag.moved?, Option.ite_none_right_eq_some, Option.some.injEq]

/-- Moving tags along with an edit never fails while they have bytes. -/
theorem rebaseTags_eq (edit : Edit) {tags : List Tag} (h : ∀ tag ∈ tags, tag.span.start < tag.span.stop) :
    rebaseTags edit tags = .ok (tags.filterMap (Tag.moved? edit)) := by
  induction tags with
  | nil => rfl
  | cons tag tags ih =>
    obtain ⟨htag, htags⟩ := List.forall_mem_cons.mp h
    have hspan := edit.mapSpan_eq htag
    by_cases hapart : (⟨edit.start, edit.stop⟩ : Span).Apart tag.span
    · rw [if_pos hapart] at hspan
      simp [rebaseTags, hspan, ih htags, Tag.moved?, hapart, bind, Except.bind, pure, Except.pure]
    · rw [if_neg hapart] at hspan
      simp [rebaseTags, hspan, ih htags, Tag.moved?, hapart, bind, Except.bind, pure, Except.pure]

/-- A tag of a text that an edited text still has: only its span has changed, and it selects the same part. -/
def Tag.IsCarried (text current : Text) (tag : Tag) : Prop :=
  ∃ given ∈ scanTags text, tag = { given with span := tag.span } ∧
    ∃ part, part ≠ [] ∧ Selects text given.span part ∧ Selects current tag.span part

theorem Tag.IsCarried.start_lt_stop {text current : Text} {tag : Tag} (h : tag.IsCarried text current) :
    tag.span.start < tag.span.stop := by
  obtain ⟨-, -, -, part, hnonempty, -, hselects⟩ := h
  exact hselects.start_lt_stop hnonempty

namespace Draft

variable {text : Text} {draft next last : Draft} {sub : Substitution} {subs : List Substitution}

/-- An edit of a range that selects something leads from one draft to another. -/
def Applies (draft : Draft) (sub : Substitution) (next : Draft) : Prop :=
  ∃ edit, draft.apply sub.span sub.text = .ok (edit, next)

/-- Some edit of a run reaches into the span that the tag with an origin has then. -/
inductive Meets (origin : Nat) : Draft → List Substitution → Prop
  | first {draft : Draft} {tag : Tag} {sub : Substitution} {subs : List Substitution}
    (htag : tag ∈ draft.tags) (horigin : tag.origin = origin)
    (hmeets : sub.span.start < tag.span.stop ∧ tag.span.start < sub.span.stop) :
    Meets origin draft (sub :: subs)
  | later {draft next : Draft} {sub : Substitution} {subs : List Substitution}
    (hstep : draft.Applies sub next) (hrest : Meets origin next subs) : Meets origin draft (sub :: subs)

/-- The pending tags are tags of a text, in order, and each still spans its part of the text. -/
structure Carries (text : Text) (draft : Draft) : Prop where
  origins : draft.tags.Pairwise fun first second => first.origin < second.origin
  ordered : draft.tags.Pairwise fun first second => first.span.stop ≤ second.span.start
  carried : ∀ tag ∈ draft.tags, tag.IsCarried text draft.source.current

namespace Carries

/-- The tags of a text are pending before any edit. -/
theorem ofScan (text : Text) (regions : List Region) (diagnostics : List Diagnostic) :
    Carries text ⟨.ofText text regions, scanTags text, diagnostics⟩ where
  origins := by
    refine (scanTags_ordered text).imp_of_mem fun {first second} hfirst hsecond hle => ?_
    have hlt := (standsIn_of_mem_scanTags hfirst).start_lt_stop
    rw [(standsIn_of_mem_scanTags hfirst).origin, (standsIn_of_mem_scanTags hsecond).origin]
    omega
  ordered := scanTags_ordered text
  carried := by
    intro tag htag
    obtain ⟨body, hselects, hvisible, -⟩ := (standsIn_of_mem_scanTags htag).selects_visible
    refine ⟨tag, htag, rfl, body, ?_, hselects, hselects⟩
    rintro rfl
    simp at hvisible

/-- An edit replaces a part of the text and moves the tags that it does not reach into. -/
theorem applies_iff (h : draft.Carries text) : draft.Applies sub next ↔
    ∃ edit source, edit.start = sub.span.start ∧ edit.stop = sub.span.stop ∧
      draft.source.replace sub.span sub.text = .ok (edit, source) ∧
      next = { draft with source, tags := draft.tags.filterMap (Tag.moved? edit) } := by
  have hmoved := fun edit => rebaseTags_eq edit fun tag htag => (h.carried tag htag).start_lt_stop
  constructor
  · rintro ⟨edit, happly⟩
    obtain ⟨source, tags, hreplace, htags, rfl⟩ := apply_eq_ok_iff.mp happly
    obtain ⟨-, -, -, -, -, -, hstart, hstop, -, -⟩ := SourceText.replace_eq_ok_iff.mp hreplace
    rw [hmoved edit] at htags
    cases htags
    exact ⟨edit, source, hstart, hstop, hreplace, rfl⟩
  · rintro ⟨edit, source, -, -, hreplace, rfl⟩
    exact ⟨edit, apply_eq_ok_iff.mpr ⟨source, _, hreplace, hmoved edit, rfl⟩⟩

/-- One edit. -/
theorem applies (h : draft.Carries text) (hstep : draft.Applies sub next) : next.Carries text := by
  obtain ⟨edit, source, hstart, hstop, hreplace, rfl⟩ := h.applies_iff.mp hstep
  constructor
  · refine h.origins.filterMap _ fun first second hlt moved hmoved moved' hmoved' => ?_
    obtain ⟨-, rfl⟩ := Tag.moved?_eq_some_iff.mp hmoved
    obtain ⟨-, rfl⟩ := Tag.moved?_eq_some_iff.mp hmoved'
    exact hlt
  · refine List.pairwise_filterMap.mpr (h.ordered.imp_of_mem fun {first second} hfirst _ hle => ?_)
    intro moved hmoved moved' hmoved'
    obtain ⟨-, rfl⟩ := Tag.moved?_eq_some_iff.mp hmoved
    obtain ⟨-, rfl⟩ := Tag.moved?_eq_some_iff.mp hmoved'
    exact edit.mapRange_ordered (Nat.le_of_lt (h.carried first hfirst).start_lt_stop) hle
  · intro moved hmem
    obtain ⟨tag, htag, hmoved⟩ := List.mem_filterMap.mp hmem
    obtain ⟨hapart, rfl⟩ := Tag.moved?_eq_some_iff.mp hmoved
    obtain ⟨given, hgiven, hsame, part, hnonempty, hselects, hcurrent⟩ := h.carried tag htag
    rw [hstart, hstop] at hapart
    refine ⟨given, hgiven, ?_, part, hnonempty, hselects, SourceText.selects_mapRange hreplace hcurrent hapart⟩
    rw [hsame]

/-- An edit keeps just the tags that it does not reach into. -/
theorem exists_origin_iff (h : draft.Carries text) (hstep : draft.Applies sub next) (origin : Nat) :
    (∃ tag ∈ next.tags, tag.origin = origin) ↔
      ∃ tag ∈ draft.tags, tag.origin = origin ∧ sub.span.Apart tag.span := by
  obtain ⟨edit, source, hstart, hstop, -, rfl⟩ := h.applies_iff.mp hstep
  have hspan : (⟨edit.start, edit.stop⟩ : Span) = sub.span := by rw [hstart, hstop]
  simp only [List.mem_filterMap, Tag.moved?_eq_some_iff, hspan]
  constructor
  · rintro ⟨moved, ⟨tag, htag, hapart, rfl⟩, horigin⟩
    exact ⟨tag, htag, horigin, hapart⟩
  · rintro ⟨tag, htag, horigin, hapart⟩
    exact ⟨_, ⟨tag, htag, hapart, rfl⟩, horigin⟩

/-- Two tags of a draft with the same origin are the same. -/
theorem eq_of_origin (h : draft.Carries text) {tag tag' : Tag} (htag : tag ∈ draft.tags)
    (htag' : tag' ∈ draft.tags) (horigin : tag.origin = tag'.origin) : tag = tag' := by
  have hsymm : Std.Symm fun first second : Tag => first.origin ≠ second.origin := ⟨fun _ _ => Ne.symm⟩
  have hdistinct : draft.tags.Pairwise fun first second => first.origin ≠ second.origin :=
    h.origins.imp Nat.ne_of_lt
  by_contra hne
  exact hdistinct.forall htag htag' hne horigin

/-- A run of edits. -/
theorem run (h : draft.Carries text) (hrun : Run Applies draft subs last) : last.Carries text :=
  hrun.preserves (fun hstep hcarries => hcarries.applies hstep) h

/-- No run brings a tag back. -/
theorem not_exists_of_run (h : draft.Carries text) (hrun : Run Applies draft subs last) {origin : Nat}
    (hgone : ¬ ∃ tag ∈ draft.tags, tag.origin = origin) : ¬ ∃ tag ∈ last.tags, tag.origin = origin := by
  induction hrun with
  | nil draft => exact hgone
  | cons hstep _ ih =>
    refine ih (h.applies hstep) fun hnext => hgone ?_
    obtain ⟨tag, htag, horigin, -⟩ := (h.exists_origin_iff hstep origin).mp hnext
    exact ⟨tag, htag, horigin⟩

/-- A run drops just the tags that some edit of it reaches into. -/
theorem dropped_iff (h : draft.Carries text) (hrun : Run Applies draft subs last) {origin : Nat}
    (hpending : ∃ tag ∈ draft.tags, tag.origin = origin) :
    (¬ ∃ tag ∈ last.tags, tag.origin = origin) ↔ Meets origin draft subs := by
  induction hrun with
  | nil draft =>
    refine iff_of_false (not_not_intro hpending) fun hmeets => ?_
    cases hmeets
  | @cons draft next last sub subs hstep hrest ih =>
    obtain ⟨tag, htag, horigin⟩ := hpending
    have hnext := h.exists_origin_iff hstep origin
    have hsame : ∀ {tag' : Tag}, tag' ∈ draft.tags → tag'.origin = origin → tag' = tag :=
      fun htag' horigin' => h.eq_of_origin htag' htag (horigin'.trans horigin.symm)
    by_cases hapart : sub.span.Apart tag.span
    · rw [ih (h.applies hstep) (hnext.mpr ⟨tag, htag, horigin, hapart⟩)]
      refine ⟨.later hstep, fun hmeets => ?_⟩
      cases hmeets with
      | first htag' horigin' hmeets =>
        rw [hsame htag' horigin'] at hmeets
        simp only [Span.Apart] at hapart
        omega
      | later hstep' hrest' =>
        obtain ⟨edit, happly⟩ := hstep
        obtain ⟨edit', happly'⟩ := hstep'
        rw [happly] at happly'
        cases happly'
        exact hrest'
    · refine iff_of_true ((h.applies hstep).not_exists_of_run hrest fun hpending => ?_) ?_
      · obtain ⟨tag', htag', horigin', hapart'⟩ := hnext.mp hpending
        exact hapart (hsame htag' horigin' ▸ hapart')
      · refine .first htag horigin ?_
        simp only [Span.Apart] at hapart
        omega

/-- A range that selects something can be edited. -/
theorem exists_apply (h : draft.Carries text) {range : Span} {part : Text}
    (hselects : Selects draft.source.current range part) (replacement : Text) :
    ∃ edit next, draft.apply range replacement = .ok (edit, next) := by
  obtain ⟨edit, source, hreplace⟩ := SourceText.exists_replace hselects replacement
  have hmoved := rebaseTags_eq edit fun tag htag => (h.carried tag htag).start_lt_stop
  exact ⟨edit, _, apply_eq_ok_iff.mpr ⟨source, _, hreplace, hmoved, rfl⟩⟩

end Carries

/-- Pending tags track their text through any edits.

Start from the tags of a text and make any run of edits. The tags still pending are tags of the text with
other spans, in order of their origins; their spans stand in order and share no byte, and each selects in the
edited text what the bytes from its origin on are in the given one. A tag is no longer pending just when some
edit of the run reached into the span that it had then. No edit of a range that selects something fails. -/
theorem pending_tags_track_text (text : Text) (regions : List Region) (diagnostics : List Diagnostic)
    {subs : List Substitution} {last : Draft}
    (h : Run Applies ⟨.ofText text regions, scanTags text, diagnostics⟩ subs last) :
    (last.tags.Pairwise fun first second => first.origin < second.origin) ∧
    (last.tags.Pairwise fun first second => first.span.stop ≤ second.span.start) ∧
    (∀ tag ∈ last.tags, tag.span.start < tag.span.stop ∧ tag.span.stop ≤ size last.source.current ∧
      (∃ given ∈ scanTags text, tag = { given with span := tag.span }) ∧
      ∃ part, slice tag.span last.source.current = .ok part ∧
        slice ⟨tag.origin, tag.origin + tag.span.length⟩ text = .ok part) ∧
    (∀ given ∈ scanTags text, (¬ ∃ tag ∈ last.tags, tag.origin = given.origin) ↔
      Meets given.origin ⟨.ofText text regions, scanTags text, diagnostics⟩ subs) ∧
    ∀ range part replacement, Selects last.source.current range part →
      ∃ edit next, last.apply range replacement = .ok (edit, next) := by
  have hstart := Carries.ofScan text regions diagnostics
  have hlast := hstart.run h
  refine ⟨hlast.origins, hlast.ordered, fun tag htag => ?_,
    fun given hgiven => hstart.dropped_iff h ⟨given, hgiven, rfl⟩,
    fun range part replacement hselects => hlast.exists_apply hselects replacement⟩
  have hlt := (hlast.carried tag htag).start_lt_stop
  obtain ⟨given, hgiven, hsame, part, -, hselects, hcurrent⟩ := hlast.carried tag htag
  have horigin : tag.origin = given.span.start := by
    rw [hsame]
    exact (standsIn_of_mem_scanTags hgiven).origin
  have hlength : tag.origin + tag.span.length = given.span.stop := by
    obtain ⟨before, after, -, hgivenStart, hgivenStop⟩ := hselects
    obtain ⟨before', after', -, htagStart, htagStop⟩ := hcurrent
    rw [horigin, Span.length]
    omega
  refine ⟨hlt, hcurrent.isBoundary_stop.le_size, ⟨given, hgiven, hsame⟩, part,
    hcurrent.slice_eq, ?_⟩
  rw [hlength, horigin]
  exact hselects.slice_eq

/-- A draft with two pending tags, and edits of it: an insertion before both, and one that reaches into the
second. -/
def twoTags : Draft := ⟨.ofText "/*[a]*/ /*[b]*/".toList [], scanTags "/*[a]*/ /*[b]*/".toList, []⟩

def taggedEdits : List Substitution := [⟨⟨0, 0⟩, "x".toList⟩, ⟨⟨10, 11⟩, []⟩]

theorem pending_tags_track_text_twoTags : ∃ last, Run Applies twoTags taggedEdits last ∧
    last.source.current = "x/*[a]*/ /[b]*/".toList ∧
    last.tags.map (fun tag => (tag.origin, tag.span)) = [(0, ⟨1, 8⟩)] ∧
    (∀ tag ∈ last.tags, ∃ part, slice tag.span last.source.current = .ok part ∧
      slice ⟨tag.origin, tag.origin + tag.span.length⟩ "/*[a]*/ /*[b]*/".toList = .ok part) ∧
    Meets 8 twoTags taggedEdits := by
  have hresult : ((twoTags.apply ⟨0, 0⟩ "x".toList >>= fun first => first.2.apply ⟨10, 11⟩ []).toOption.map
      fun last => (last.2.source.current, last.2.tags.map fun tag => (tag.origin, tag.span))) =
      some ("x/*[a]*/ /[b]*/".toList, [(0, ⟨1, 8⟩)]) := by decide +kernel
  obtain ⟨⟨edit', last⟩, hlast, hresult⟩ := Option.map_eq_some_iff.mp hresult
  obtain ⟨⟨edit, mid⟩, hmid, hlast⟩ := bind_eq_ok_iff.mp (eq_ok_of_toOption hlast)
  obtain ⟨hcurrent, htags⟩ := Prod.mk.inj hresult
  have hrun : Run Applies twoTags taggedEdits last := .cons ⟨edit, hmid⟩ (.cons ⟨edit', hlast⟩ (.nil _))
  obtain ⟨-, -, htracked, hdropped, -⟩ := pending_tags_track_text _ _ _ hrun
  have hsecond : (scanTags "/*[a]*/ /*[b]*/".toList).any (·.origin == 8) = true := by decide +kernel
  obtain ⟨given, hgiven, horigin⟩ := List.any_eq_true.mp hsecond
  rw [beq_iff_eq] at horigin
  refine ⟨last, hrun, hcurrent, htags, fun tag htag => (htracked tag htag).2.2.2, ?_⟩
  rw [← horigin]
  refine (hdropped given hgiven).mp ?_
  rintro ⟨tag, htag, hsame⟩
  have hpair := List.mem_map_of_mem (f := fun tag : Tag => (tag.origin, tag.span)) htag
  rw [htags, hsame, horigin] at hpair
  simp at hpair

end Draft
end TaggedHeader
