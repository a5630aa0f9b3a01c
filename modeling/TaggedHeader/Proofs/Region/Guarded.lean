import TaggedHeader.Proofs.Draft.Cutting

/-!
# Regions that follow each other

Where begin and end markers alternate, each begin marker is paired with the tag behind it, and no region lies inside
another one. A text can then be taken apart into protected regions with text between them. Each region starts where
the text before it ends, so the sizes of the parts say where the regions are. When the markers go, a sweep meets them
one by one: everything that is still to go lies behind the marker it has come to.
-/

namespace TaggedHeader

open Text Substitution

/-! ## Markers in turn -/

/-- Tags that begin and end regions in turn, with the regions that they delimit. -/
inductive PairInTurn (text : Text) : List Tag → List Region → Prop
  | nil : PairInTurn text [] []
  | cons {kind : RegionKind} {first second : Tag} {tags : List Tag} {region : Region} {regions : List Region}
    (hopens : first.directive.marker? = some (.opening kind))
    (hcloses : second.directive.marker? = some (.closing kind))
    (hregion : markedRegion text kind first.span second.span = .ok region) (hrest : PairInTurn text tags regions) :
    PairInTurn text (first :: second :: tags) (region :: regions)

namespace PairInTurn

variable {text : Text} {tags : List Tag} {regions : List Region}

/-- All of the tags are markers. -/
theorem marker?_ne_none (h : PairInTurn text tags regions) : ∀ tag ∈ tags, tag.directive.marker? ≠ none := by
  induction h with
  | nil => exact fun tag htag => absurd htag List.not_mem_nil
  | cons hopens hcloses _ _ ih =>
    exact List.forall_mem_cons.mpr ⟨by simp [hopens], List.forall_mem_cons.mpr ⟨by simp [hcloses], ih⟩⟩

/-- Pairing finds the regions of the tags. -/
theorem exists_pairMarkers (h : PairInTurn text tags regions) (lines : LineTable) :
    ∃ pairing, pairMarkers text lines [] tags = .ok pairing ∧ pairing.regions = regions := by
  induction h with
  | nil => exact ⟨_, rfl, rfl⟩
  | @cons kind first second tags region regions hopens hcloses hregion _ ih =>
    obtain ⟨pairing, hpairing, rfl⟩ := ih
    have hend : pairMarkers text lines [kind] (second :: tags) =
        .ok { pairing with markers := (kind, second.span) :: pairing.markers } := by
      simp [pairMarkers, hcloses, hpairing, bind, Except.bind, pure, Except.pure]
    refine ⟨{ pairing with
      regions := region :: pairing.regions
      markers := (kind, first.span) :: (kind, second.span) :: pairing.markers }, ?_, rfl⟩
    rw [pairMarkers]
    simp [hopens, hcloses, hregion, hend, bind, Except.bind, pure, Except.pure]

/-- The tag behind a begin marker is its end marker. -/
theorem closes_succ (h : PairInTurn text tags regions) {kind : RegionKind} {index : Nat}
    (hopens : markerAt tags index = some (.opening kind)) : markerAt tags (index + 1) = some (.closing kind) := by
  induction h generalizing index with
  | nil => cases hopens
  | @cons kind' first second tags region regions hfirst hsecond _ _ ih =>
    match index with
    | 0 =>
      have hkind : some (Marker.opening kind') = some (.opening kind) := hfirst.symm.trans hopens
      cases hkind
      exact hsecond
    | 1 => cases hsecond.symm.trans hopens
    | index + 2 => exact ih hopens

/-- No marker stands between a begin marker and its end marker. -/
theorem not_nests (h : PairInTurn text tags regions) (first index last : Nat) : ¬ Nests tags first index last := by
  rintro ⟨⟨kind, hpair⟩, hgt, hlt, -⟩
  exact hpair.between (first + 1) (Nat.lt_succ_self _) (Nat.lt_of_le_of_lt hgt hlt) (h.closes_succ hpair.opens)

/-- A scan finds the regions of tags that pair up in turn. -/
theorem exists_scanRegions (h : PairInTurn text (scanTags text) regions) :
    ∃ scan, scanRegions text (scanTags text) = .ok scan ∧ scan.regions = regions := by
  obtain ⟨pairing, hpairing, hregions⟩ := h.exists_pairMarkers (.ofText text)
  obtain ⟨described, hdescribed, hdescribes⟩ := exists_pairing text
  cases hpairing.symm.trans hdescribed
  have hscan := scanRegions_eq hpairing
  cases hnesting : pairing.nesting? with
  | none =>
    rw [hnesting] at hscan
    exact ⟨_, hscan, hregions⟩
  | some found =>
    obtain ⟨first, index, last, -, hnests, -⟩ := hdescribes.nests_of_nesting? (scanTags_tagsIn text) hnesting
    exact absurd hnests (h.not_nests first index last)

end PairInTurn

/-! ## A sweep in order -/

/-- Substitutions with bytes of their own that lie behind an offset. -/
def Substitution.Behind (offset : Nat) (subs : List Substitution) : Prop :=
  ∀ sub ∈ subs, offset ≤ sub.span.start ∧ sub.span.start < sub.span.stop

namespace Substitution.Behind

variable {subs : List Substitution} {offset : Nat} {part : Text}

theorem mono {offset' : Nat} (h : Behind offset subs) (hle : offset' ≤ offset) : Behind offset' subs :=
  fun sub hsub => ⟨hle.trans (h sub hsub).1, (h sub hsub).2⟩

theorem cons (h : Behind (offset + size part) subs) (hpart : part ≠ []) :
    Behind offset (⟨⟨offset, offset + size part⟩, []⟩ :: subs) :=
  List.forall_mem_cons.mpr ⟨⟨Nat.le_refl _, Nat.lt_add_of_pos_right (size_pos hpart)⟩, h.mono (Nat.le_add_right _ _)⟩

theorem spare (h : Behind (offset + size part) subs) : Spare subs ⟨offset, offset + size part⟩ :=
  fun sub hsub => .inr (h sub hsub).1

/-- What lies before all substitutions stays. -/
theorem sweep_kept (h : Behind (offset + size part) subs) (more : Text) :
    sweep subs offset (part ++ more) = part ++ sweep subs (offset + size part) more := by
  rw [sweep_append, sweep_of_spare (fun sub hsub => (h sub hsub).2) h.spare]

/-- What the first of the substitutions deletes goes. -/
theorem sweep_deleted (h : Behind (offset + size part) subs) (hpart : part ≠ []) (more : Text) :
    sweep (⟨⟨offset, offset + size part⟩, []⟩ :: subs) offset (part ++ more) =
      sweep subs (offset + size part) more := by
  have hlt : offset < offset + size part := Nat.lt_add_of_pos_right (size_pos hpart)
  rw [sweep_append, sweep_cons_self hpart rfl (fun sub hsub => (h sub hsub).2) h.spare, List.nil_append]
  exact sweep_cons_of_apart hlt (.inl (Nat.le_refl _))

end Substitution.Behind

/-! ## Regions one behind the other -/

/-- A protected region with the text behind it. The markers come with what they absorb. -/
structure Guarded where
  opening : Text
  interior : Text
  closing : Text
  behind : Text
  opening_ne_nil : opening ≠ []
  closing_ne_nil : closing ≠ []

namespace Guarded

/-- All of a part, markers included. -/
def text (part : Guarded) : Text := part.opening ++ part.interior ++ part.closing ++ part.behind

/-- What is left of a part without its markers. -/
def rest (part : Guarded) : Text := part.interior ++ part.behind

/-- The region of a part that starts at an offset. -/
def region (part : Guarded) (offset : Nat) : Region :=
  let start := offset + size part.opening
  let stop := start + size part.interior
  ⟨.preserved, ⟨offset, stop + size part.closing⟩, ⟨start, stop⟩⟩

/-- The regions of parts that follow each other from an offset on. -/
def regionsFrom : (offset : Nat) → List Guarded → List Region
  | _, [] => []
  | offset, part :: parts => part.region offset :: regionsFrom (offset + size part.text) parts

theorem size_text (part : Guarded) :
    size part.text = size part.opening + size part.interior + size part.closing + size part.behind := by
  simp only [text, size_append]

/-- The two markers of the first region go, and what goes of the regions behind it. -/
theorem cuts_regionsFrom_cons (part : Guarded) (parts : List Guarded) (offset : Nat) :
    cuts (regionsFrom offset (part :: parts)) =
      ⟨⟨offset, offset + size part.opening⟩, []⟩ ::
      ⟨⟨offset + size part.opening + size part.interior,
        offset + size part.opening + size part.interior + size part.closing⟩, []⟩ ::
      cuts (regionsFrom (offset + size part.text) parts) := rfl

/-- What goes of the regions lies behind the offset that they start from. -/
theorem behind_cuts (offset : Nat) (parts : List Guarded) : Behind offset (cuts (regionsFrom offset parts)) := by
  induction parts generalizing offset with
  | nil => exact fun cut hcut => absurd hcut List.not_mem_nil
  | cons part parts ih =>
    have hsize := part.size_text
    rw [cuts_regionsFrom_cons]
    refine .cons (.mono (.cons (.mono (ih _) ?_) part.closing_ne_nil) ?_) part.opening_ne_nil
    · omega
    · omega

/-- When the markers of the regions go, the text between them is left. -/
theorem sweep_regionsFrom (offset : Nat) (parts : List Guarded) :
    sweep (cuts (regionsFrom offset parts)) offset (parts.flatMap text) = parts.flatMap rest := by
  induction parts generalizing offset with
  | nil => rfl
  | cons part parts ih =>
    have hsize := part.size_text
    have hbehind := behind_cuts (offset + size part.text) parts
    have hend : offset + size part.text =
        offset + size part.opening + size part.interior + size part.closing + size part.behind := by omega
    have hrest := ih (offset + size part.text)
    rw [cuts_regionsFrom_cons, List.flatMap_cons, List.flatMap_cons]
    rw [hend] at hbehind hrest ⊢
    generalize cuts (regionsFrom _ parts) = later at hbehind hrest ⊢
    have hclosing := (hbehind.mono (Nat.le_add_right _ _)).cons part.closing_ne_nil
    have hopening := hclosing.mono (Nat.le_add_right _ _)
    simp only [text, List.append_assoc]
    rw [hopening.sweep_deleted part.opening_ne_nil, hclosing.sweep_kept,
      (hbehind.mono (Nat.le_add_right _ _)).sweep_deleted part.closing_ne_nil, hbehind.sweep_kept, hrest, rest,
      List.append_assoc]

end Guarded
end TaggedHeader
