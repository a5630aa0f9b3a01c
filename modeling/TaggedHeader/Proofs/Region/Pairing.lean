import Mathlib.Data.List.Forall2
import TaggedHeader.Proofs.Region.Marked

/-!
# Which markers delimit a region

Pairing walks over the tags once and remembers the kinds of the regions that are open. The rule it follows
is stated on positions in the list of tags instead: `IsPair` joins a begin marker with the first end of its
kind behind it, and `Delimits` says which tags have a part in a region. `pairMarkers_describes` shows, by
induction over the walk, that the regions and markers found are exactly those, in the order of the tags.
-/

namespace TaggedHeader

open Text

/-- The part that the tag at an index has in delimiting regions. -/
def markerAt (tags : List Tag) (index : Nat) : Option Marker :=
  tags[index]?.bind (·.directive.marker?)

/-- A begin marker, and the first end marker of its kind behind it. -/
structure IsPair (tags : List Tag) (kind : RegionKind) (first last : Nat) : Prop where
  lt : first < last
  opens : markerAt tags first = some (.opening kind)
  closes : markerAt tags last = some (.closing kind)
  between : ∀ index, first < index → index < last → markerAt tags index ≠ some (.closing kind)

/-- A begin marker is paired when some end marker of its kind comes after it. -/
def IsPairedBegin (tags : List Tag) (kind : RegionKind) (index : Nat) : Prop :=
  markerAt tags index = some (.opening kind) ∧
    ∃ last, index < last ∧ markerAt tags last = some (.closing kind)

/-- An end marker is paired when it is the first of its kind after some begin marker of that kind. -/
def IsPairedEnd (tags : List Tag) (kind : RegionKind) (index : Nat) : Prop :=
  ∃ first, IsPair tags kind first index

instance (tags : List Tag) (kind : RegionKind) (index : Nat) : Decidable (IsPairedBegin tags kind index) :=
  decidable_of_iff (markerAt tags index = some (.opening kind) ∧
      ∃ last, last < tags.length ∧ index < last ∧ markerAt tags last = some (.closing kind)) <| by
    refine and_congr_right fun _ => exists_congr fun last => and_iff_right_of_imp fun ⟨_, hcloses⟩ => ?_
    obtain ⟨tag, htag, -⟩ := Option.bind_eq_some_iff.mp hcloses
    exact (List.getElem?_eq_some_iff.mp htag).1

instance (tags : List Tag) (kind : RegionKind) (first last : Nat) : Decidable (IsPair tags kind first last) :=
  decidable_of_iff (first < last ∧ markerAt tags first = some (.opening kind) ∧
      markerAt tags last = some (.closing kind) ∧
      ∀ index, index < last → first < index → markerAt tags index ≠ some (.closing kind))
    ⟨fun ⟨hlt, hopens, hcloses, hbetween⟩ => ⟨hlt, hopens, hcloses, fun index hgt hless => hbetween index hless hgt⟩,
      fun h => ⟨h.lt, h.opens, h.closes, fun index hless hgt => h.between index hgt hless⟩⟩

instance (tags : List Tag) (kind : RegionKind) (index : Nat) : Decidable (IsPairedEnd tags kind index) :=
  decidable_of_iff (∃ first, first < index ∧ IsPair tags kind first index)
    (exists_congr fun _ => and_iff_right_of_imp IsPair.lt)

/-- Why the marker at an index has no part in delimiting a region, if it has none. -/
def unpairedCause? (tags : List Tag) (index : Nat) : Option Diagnostic.Cause :=
  match markerAt tags index with
  | some (.opening kind) => if IsPairedBegin tags kind index then none else some (.unclosedRegion kind)
  | some (.closing kind) => if IsPairedEnd tags kind index then none else some (.unmatchedEnd kind)
  | some .block | none => none

/-- The markers without partner from an index on, in order. -/
def unpairedFrom (text : Text) (tags : List Tag) (start : Nat) : List (Span × Diagnostic) :=
  ((tags.drop start).zipIdx start).filterMap fun entry =>
    (unpairedCause? tags entry.2).map fun cause =>
      (entry.1.span, .located (.ofText text) entry.1.origin cause)

theorem unpairedFrom_cons (text : Text) {tags : List Tag} {start : Nat} {tag : Tag}
    (htag : tags[start]? = some tag) {cause : Diagnostic.Cause} (h : unpairedCause? tags start = some cause) :
    unpairedFrom text tags start =
      (tag.span, .located (.ofText text) tag.origin cause) :: unpairedFrom text tags (start + 1) := by
  obtain ⟨hstart, rfl⟩ := List.getElem?_eq_some_iff.mp htag
  rw [unpairedFrom, List.drop_eq_getElem_cons hstart, List.zipIdx_cons, List.filterMap_cons, h]
  rfl

theorem unpairedFrom_skip (text : Text) {tags : List Tag} {start : Nat}
    (h : unpairedCause? tags start = none) :
    unpairedFrom text tags start = unpairedFrom text tags (start + 1) := by
  rcases Nat.lt_or_ge start tags.length with hstart | hend
  · rw [unpairedFrom, List.drop_eq_getElem_cons hstart, List.zipIdx_cons, List.filterMap_cons, h]
    rfl
  · rw [unpairedFrom, unpairedFrom, List.drop_eq_nil_of_le hend, List.drop_eq_nil_of_le (Nat.le_succ_of_le hend)]
    rfl

/-- The tag at an index is a literal block, a paired begin marker or a paired end marker. -/
def Delimits (tags : List Tag) (index : Nat) (kind : RegionKind) : Prop :=
  (markerAt tags index = some .block ∧ kind = .literal) ∨
    IsPairedBegin tags kind index ∨ IsPairedEnd tags kind index

/-- The tag at an index is a literal block or a paired begin marker. -/
def Opens (tags : List Tag) (index : Nat) : Prop :=
  markerAt tags index = some .block ∨ ∃ kind, IsPairedBegin tags kind index

/-- The region that starts with one tag and ends with another, which is the same one for a literal block. -/
inductive RegionAt (text : Text) (tags : List Tag) (first : Nat) : (last : Nat) → Region → Prop
  | literal {tag : Tag} {interior : Span} (htag : tags[first]? = some tag)
    (hliteral : tag.directive = .literal) (hinterior : tag.literalInterior = .ok interior) :
    RegionAt text tags first first ⟨.literal, tag.span, interior⟩
  | marked {kind : RegionKind} {last : Nat} {opener closer : Tag} {region : Region}
    (hpair : IsPair tags kind first last) (hopener : tags[first]? = some opener)
    (hcloser : tags[last]? = some closer)
    (hregion : markedRegion text kind opener.span closer.span = .ok region) :
    RegionAt text tags first last region

/-- A list has one entry for each index from `start` on that has a property, in increasing order. -/
def Enumerates {α : Type} (start : Nat) (p : Nat → Prop) (R : Nat → α → Prop) (entries : List α) : Prop :=
  ∃ indices : List Nat, indices.Pairwise (· < ·) ∧
    (∀ index, index ∈ indices ↔ start ≤ index ∧ p index) ∧ List.Forall₂ R indices entries

namespace Enumerates

variable {α : Type} {start : Nat} {p : Nat → Prop} {R : Nat → α → Prop} {entries : List α}

theorem nil (h : ∀ index, start ≤ index → ¬ p index) : Enumerates start p R [] :=
  ⟨[], List.Pairwise.nil, fun index => by simpa using h index, List.Forall₂.nil⟩

/-- An index without the property has no entry. -/
theorem skip (h : Enumerates (start + 1) p R entries) (hstart : ¬ p start) :
    Enumerates start p R entries := by
  obtain ⟨indices, hsorted, hmem, hentries⟩ := h
  refine ⟨indices, hsorted, fun index => ?_, hentries⟩
  rw [hmem]
  constructor
  · rintro ⟨hle, hp⟩
    exact ⟨Nat.le_of_succ_le hle, hp⟩
  · rintro ⟨hle, hp⟩
    refine ⟨Nat.lt_of_le_of_ne hle ?_, hp⟩
    rintro rfl
    exact hstart hp

/-- An index with the property has an entry before all later ones. -/
theorem cons {entry : α} (h : Enumerates (start + 1) p R entries) (hstart : p start)
    (hentry : R start entry) : Enumerates start p R (entry :: entries) := by
  obtain ⟨indices, hsorted, hmem, hentries⟩ := h
  refine ⟨start :: indices, ?_, fun index => ?_, .cons hentry hentries⟩
  · exact List.pairwise_cons.mpr ⟨fun index hindex => ((hmem index).mp hindex).1, hsorted⟩
  · rw [List.mem_cons, hmem]
    constructor
    · rintro (rfl | ⟨hle, hp⟩)
      · exact ⟨Nat.le_refl _, hstart⟩
      · exact ⟨Nat.le_of_succ_le hle, hp⟩
    · rintro ⟨hle, hp⟩
      rcases Nat.eq_or_lt_of_le hle with rfl | hlt
      · exact .inl rfl
      · exact .inr ⟨hlt, hp⟩

/-- Every entry belongs to an index. -/
theorem exists_index (h : Enumerates start p R entries) {entry : α} (hentry : entry ∈ entries) :
    ∃ index, start ≤ index ∧ p index ∧ R index entry := by
  obtain ⟨indices, -, hmem, hentries⟩ := h
  obtain ⟨i, hi, rfl⟩ := List.getElem_of_mem hentry
  have hi' : i < indices.length := hentries.length_eq ▸ hi
  obtain ⟨hle, hp⟩ := (hmem indices[i]).mp (List.getElem_mem hi')
  exact ⟨indices[i], hle, hp, hentries.get hi' hi⟩

/-- Every index with the property has an entry. -/
theorem exists_entry (h : Enumerates start p R entries) {index : Nat} (hle : start ≤ index)
    (hp : p index) : ∃ entry ∈ entries, R index entry := by
  obtain ⟨indices, -, hmem, hentries⟩ := h
  obtain ⟨i, hi, rfl⟩ := List.getElem_of_mem ((hmem index).mpr ⟨hle, hp⟩)
  have hi' : i < entries.length := hentries.length_eq ▸ hi
  exact ⟨entries[i], List.getElem_mem hi', hentries.get hi hi'⟩

/-- What holds of entries at increasing indices holds of the entries in order. -/
theorem pairwise {S : α → α → Prop} (h : Enumerates start p R entries)
    (hstep : ∀ i j, p i → p j → i < j → ∀ a b, R i a → R j b → S a b) : entries.Pairwise S := by
  obtain ⟨indices, hsorted, hmem, hentries⟩ := h
  refine List.pairwise_iff_getElem.mpr fun i j hi hj hlt => ?_
  have hi' : i < indices.length := hentries.length_eq ▸ hi
  have hj' : j < indices.length := hentries.length_eq ▸ hj
  exact hstep indices[i] indices[j] ((hmem _).mp (List.getElem_mem hi')).2
    ((hmem _).mp (List.getElem_mem hj')).2 (List.pairwise_iff_getElem.mp hsorted i j hi' hj' hlt)
    entries[i] entries[j] (hentries.get hi' hi) (hentries.get hj' hj)

/-- The first entry that answers a question belongs to the first index whose entry does. -/
theorem exists_of_findSome? {β : Type} {f : α → Option β} {answer : β}
    (h : Enumerates start p R entries) (hfind : entries.findSome? f = some answer) :
    ∃ index entry, start ≤ index ∧ p index ∧ R index entry ∧ f entry = some answer ∧
      ∀ earlier, start ≤ earlier → p earlier → earlier < index →
        ∃ other, R earlier other ∧ f other = none := by
  obtain ⟨indices, hsorted, hmem, hentries⟩ := h
  obtain ⟨before, entry, after, rfl, hanswer, hbefore⟩ := List.findSome?_eq_some_iff.mp hfind
  have hentry : before.length < (before ++ entry :: after).length := by simp
  have hindex : before.length < indices.length := hentries.length_eq ▸ hentry
  obtain ⟨hle, hp⟩ := (hmem indices[before.length]).mp (List.getElem_mem hindex)
  have hrelated := hentries.get hindex hentry
  simp only [List.get_eq_getElem, List.getElem_append_right (Nat.le_refl _), Nat.sub_self,
    List.getElem_cons_zero] at hrelated
  refine ⟨indices[before.length], entry, hle, hp, hrelated, hanswer, fun earlier hearlier hpe hlt => ?_⟩
  obtain ⟨i, hi, rfl⟩ := List.getElem_of_mem ((hmem earlier).mpr ⟨hearlier, hpe⟩)
  have hi' : i < before.length := by
    by_contra hge
    rcases Nat.eq_or_lt_of_le (Nat.not_lt.mp hge) with rfl | hgt
    · exact absurd hlt (Nat.lt_irrefl _)
    · exact absurd hlt (Nat.lt_asymm (List.pairwise_iff_getElem.mp hsorted _ _ hindex hi hgt))
  have hother := hentries.get hi (hi'.trans hentry)
  simp only [List.get_eq_getElem, List.getElem_append_left hi'] at hother
  exact ⟨before[i], hother, hbefore _ (List.getElem_mem hi')⟩

end Enumerates

/-- What pairing finds among the tags from an index on. -/
structure Pairing.Describes (text : Text) (tags : List Tag) (start : Nat) (pairing : Pairing) : Prop where
  regions : Enumerates start (Opens tags) (fun first region => ∃ last, RegionAt text tags first last region)
    pairing.regions
  markers : Enumerates start (fun index => ∃ kind, Delimits tags index kind)
    (fun index marker => Delimits tags index marker.1 ∧ tags[index]?.map Tag.span = some marker.2)
    pairing.markers
  unpaired : pairing.unpaired = unpairedFrom text tags start

/-- A region of a kind is open in front of an index: it has begun, and its first end is still to come. -/
def IsOpenAt (tags : List Tag) (start : Nat) (kind : RegionKind) : Prop :=
  ∃ first, first < start ∧ markerAt tags first = some (.opening kind) ∧
    (∀ index, first < index → index < start → markerAt tags index ≠ some (.closing kind)) ∧
    ∃ last, start ≤ last ∧ markerAt tags last = some (.closing kind)

/-- The first end marker behind a begin marker is its partner. -/
theorem isPair_of_find? {tags rest : List Tag} {start : Nat} {kind : RegionKind} {partner : Tag}
    (hrest : tags.drop (start + 1) = rest) (hopens : markerAt tags start = some (.opening kind))
    (hfind : rest.find? (·.directive.marker? == some (.closing kind)) = some partner) :
    ∃ last, IsPair tags kind start last ∧ tags[last]? = some partner := by
  obtain ⟨hpartner, i, hi, rfl, hbefore⟩ := List.find?_eq_some_iff_getElem.mp hfind
  subst hrest
  have hlast : tags[start + 1 + i]? = some (tags.drop (start + 1))[i] := by
    rw [← List.getElem?_drop, List.getElem?_eq_getElem hi]
  refine ⟨start + 1 + i, ⟨by omega, hopens, ?_, fun index hgt hlt hcloses => ?_⟩, hlast⟩
  · simpa [markerAt, hlast] using hpartner
  · have hj : index - (start + 1) < i := by omega
    have hearlier := hbefore _ hj
    have hindex : tags[index]? = some (tags.drop (start + 1))[index - (start + 1)] := by
      rw [← List.getElem?_eq_getElem (hj.trans hi), List.getElem?_drop]
      congr 1
      omega
    rw [markerAt, hindex, Option.bind_some] at hcloses
    rw [hcloses] at hearlier
    simp at hearlier

/-- A begin marker without an end marker behind it has no partner. -/
theorem not_closes_of_find? {tags rest : List Tag} {start : Nat} {kind : RegionKind}
    (hrest : tags.drop (start + 1) = rest)
    (hfind : rest.find? (·.directive.marker? == some (.closing kind)) = none) {index : Nat}
    (hlt : start < index) : markerAt tags index ≠ some (.closing kind) := by
  intro hcloses
  obtain ⟨tag, htag, hmarker⟩ := Option.bind_eq_some_iff.mp hcloses
  have hmem : tag ∈ rest := by
    rw [← hrest, List.mem_iff_getElem?]
    refine ⟨index - (start + 1), ?_⟩
    rw [List.getElem?_drop, ← htag]
    congr 1
    omega
  have hother := List.find?_eq_none.mp hfind tag hmem
  simp [hmarker] at hother

theorem IsPair.isPairedBegin {tags : List Tag} {kind : RegionKind} {first last : Nat}
    (h : IsPair tags kind first last) : IsPairedBegin tags kind first :=
  ⟨h.opens, last, h.lt, h.closes⟩

/-- A tag that neither begins nor ends a region of a kind leaves it open or not. -/
theorem isOpenAt_succ_iff {tags : List Tag} {start : Nat} {kind : RegionKind}
    (hopens : markerAt tags start ≠ some (.opening kind))
    (hcloses : markerAt tags start ≠ some (.closing kind)) :
    IsOpenAt tags (start + 1) kind ↔ IsOpenAt tags start kind := by
  constructor
  · rintro ⟨first, hlt, hfirst, hbetween, last, hle, hlast⟩
    refine ⟨first, Nat.lt_of_le_of_ne (Nat.le_of_lt_succ hlt) ?_, hfirst,
      fun index hgt hindex => hbetween index hgt (Nat.lt_succ_of_lt hindex), last,
      Nat.le_of_succ_le hle, hlast⟩
    rintro rfl
    exact hopens hfirst
  · rintro ⟨first, hlt, hfirst, hbetween, last, hle, hlast⟩
    refine ⟨first, Nat.lt_succ_of_lt hlt, hfirst, fun index hgt hindex => ?_, last, ?_, hlast⟩
    · rcases Nat.lt_succ_iff_lt_or_eq.mp hindex with hindex | rfl
      · exact hbetween index hgt hindex
      · exact hcloses
    · refine Nat.lt_of_le_of_ne hle ?_
      rintro rfl
      exact hcloses hlast

/-- A begin marker without an end marker behind it opens no region. -/
theorem not_isOpenAt_of_not_closes {tags : List Tag} {start : Nat} {kind : RegionKind}
    (h : ∀ index, start ≤ index → markerAt tags index ≠ some (.closing kind)) :
    ¬ IsOpenAt tags start kind := by
  rintro ⟨-, -, -, -, last, hle, hlast⟩
  exact h last hle hlast

/-- An end marker is paired exactly when a region of its kind is open before it. -/
theorem isOpenAt_iff_of_closing {tags : List Tag} {start : Nat} {kind : RegionKind}
    (hcloses : markerAt tags start = some (.closing kind)) :
    IsOpenAt tags start kind ↔ IsPairedEnd tags kind start := by
  constructor
  · rintro ⟨first, hlt, hfirst, hbetween, -⟩
    exact ⟨first, hlt, hfirst, hcloses, hbetween⟩
  · rintro ⟨first, hpair⟩
    exact ⟨first, hpair.lt, hpair.opens, hpair.between, start, Nat.le_refl _, hcloses⟩

/-- A walk over the tags knows the kinds of the regions that are open in front of an index. -/
def AreOpenAt (tags : List Tag) (start : Nat) (opened : List RegionKind) : Prop :=
  ∀ kind, kind ∈ opened ↔ IsOpenAt tags start kind

namespace AreOpenAt

variable {tags : List Tag} {start : Nat} {opened : List RegionKind} {kind : RegionKind}

theorem zero (tags : List Tag) : AreOpenAt tags 0 [] := by
  intro kind
  simp [IsOpenAt]

/-- A tag that is no marker changes nothing. -/
theorem skip (h : AreOpenAt tags start opened) (hopens : ∀ kind, markerAt tags start ≠ some (.opening kind))
    (hcloses : ∀ kind, markerAt tags start ≠ some (.closing kind)) :
    AreOpenAt tags (start + 1) opened :=
  fun kind => (h kind).trans (isOpenAt_succ_iff (hopens kind) (hcloses kind)).symm

/-- A paired begin marker opens a region of its kind. -/
theorem cons {last : Nat} (h : AreOpenAt tags start opened) (hpair : IsPair tags kind start last) :
    AreOpenAt tags (start + 1) (kind :: opened) := by
  intro other
  by_cases hkind : other = kind
  · subst hkind
    refine iff_of_true List.mem_cons_self ⟨start, Nat.lt_succ_self _, hpair.opens,
      fun index hgt hlt => absurd hlt (Nat.not_lt.mpr hgt), last, hpair.lt, hpair.closes⟩
  · have hmarker := hpair.opens
    rw [List.mem_cons, or_iff_right hkind, h other]
    exact (isOpenAt_succ_iff (by simp [hmarker, Ne.symm hkind]) (by simp [hmarker])).symm

/-- A begin marker without an end marker behind it opens nothing. -/
theorem unclosed (h : AreOpenAt tags start opened) (hmarker : markerAt tags start = some (.opening kind))
    (hunclosed : ∀ index, start < index → markerAt tags index ≠ some (.closing kind)) :
    AreOpenAt tags (start + 1) opened := by
  intro other
  by_cases hkind : other = kind
  · subst hkind
    have hstart : ∀ index, start ≤ index → markerAt tags index ≠ some (.closing other) := by
      intro index hle
      rcases Nat.eq_or_lt_of_le hle with rfl | hlt
      · simp [hmarker]
      · exact hunclosed index hlt
    rw [h other]
    exact iff_of_false (not_isOpenAt_of_not_closes hstart) (not_isOpenAt_of_not_closes hunclosed)
  · rw [h other]
    exact (isOpenAt_succ_iff (by simp [hmarker, Ne.symm hkind]) (by simp [hmarker])).symm

/-- An end marker leaves no region of its kind open. -/
theorem filter (h : AreOpenAt tags start opened) (hmarker : markerAt tags start = some (.closing kind)) :
    AreOpenAt tags (start + 1) (opened.filter (· ≠ kind)) := by
  intro other
  by_cases hkind : other = kind
  · subst hkind
    refine iff_of_false (by simp) ?_
    rintro ⟨first, hlt, hfirst, hbetween, -⟩
    rcases Nat.lt_succ_iff_lt_or_eq.mp hlt with hlt | rfl
    · exact hbetween start hlt (Nat.lt_succ_self _) hmarker
    · rw [hmarker] at hfirst
      cases hfirst
  · rw [List.mem_filter, decide_eq_true hkind, and_iff_left rfl, h other]
    exact (isOpenAt_succ_iff (by simp [hmarker]) (by simp [hmarker, Ne.symm hkind])).symm

end AreOpenAt

theorem Opens.marker {tags : List Tag} {index : Nat} (h : Opens tags index) :
    markerAt tags index = some .block ∨ ∃ kind, markerAt tags index = some (.opening kind) := by
  rcases h with hblock | ⟨kind, hpaired⟩
  · exact .inl hblock
  · exact .inr ⟨kind, hpaired.1⟩

theorem Opens.delimits {tags : List Tag} {index : Nat} (h : Opens tags index) :
    ∃ kind, Delimits tags index kind := by
  rcases h with hblock | ⟨kind, hpaired⟩
  · exact ⟨.literal, .inl ⟨hblock, rfl⟩⟩
  · exact ⟨kind, .inr (.inl hpaired)⟩

theorem Delimits.marker {tags : List Tag} {index : Nat} {kind : RegionKind}
    (h : Delimits tags index kind) : markerAt tags index = some .block ∨
      markerAt tags index = some (.opening kind) ∨ markerAt tags index = some (.closing kind) := by
  rcases h with ⟨hblock, -⟩ | hpaired | ⟨first, hpair⟩
  · exact .inl hblock
  · exact .inr (.inl hpaired.1)
  · exact .inr (.inr hpair.closes)

/-- A begin marker without an end marker behind it opens and delimits nothing. -/
theorem not_delimits_of_unclosed {tags : List Tag} {index : Nat} {kind : RegionKind}
    (hmarker : markerAt tags index = some (.opening kind))
    (hunclosed : ∀ last, index < last → markerAt tags last ≠ some (.closing kind)) :
    ¬ Opens tags index ∧ ¬ ∃ kind, Delimits tags index kind := by
  have hbegin : ∀ other, ¬ IsPairedBegin tags other index := by
    rintro other ⟨hopens, last, hlt, hcloses⟩
    rw [hmarker] at hopens
    cases hopens
    exact hunclosed last hlt hcloses
  constructor
  · rintro (hblock | ⟨other, hpaired⟩)
    · simp [hmarker] at hblock
    · exact hbegin other hpaired
  · rintro ⟨other, ⟨hblock, -⟩ | hpaired | ⟨first, hpair⟩⟩
    · simp [hmarker] at hblock
    · exact hbegin other hpaired
    · simpa [hmarker] using hpair.closes

/-- An end marker without an open region of its kind delimits nothing. -/
theorem not_delimits_of_unmatched {tags : List Tag} {index : Nat} {kind : RegionKind}
    (hmarker : markerAt tags index = some (.closing kind)) (hclosed : ¬ IsOpenAt tags index kind) :
    ¬ ∃ kind, Delimits tags index kind := by
  rintro ⟨other, ⟨hblock, -⟩ | hpaired | ⟨first, hpair⟩⟩
  · simp [hmarker] at hblock
  · simpa [hmarker] using hpaired.1
  · have hcloses := hpair.closes
    rw [hmarker] at hcloses
    cases hcloses
    exact hclosed ((isOpenAt_iff_of_closing hmarker).mpr ⟨first, hpair⟩)

/-- A literal block is the only directive that is a region by itself. -/
theorem Directive.marker?_eq_block {directive : Directive} :
    directive.marker? = some .block ↔ directive = .literal := by
  cases directive <;> simp [Directive.marker?]

/-- Tags that stand in a text in order. -/
structure TagsIn (text : Text) (tags : List Tag) : Prop where
  standsIn : ∀ tag ∈ tags, tag.StandsIn text
  ordered : tags.Pairwise fun first second => first.span.stop ≤ second.span.start

theorem scanTags_tagsIn (text : Text) : TagsIn text (scanTags text) :=
  ⟨fun _ h => standsIn_of_mem_scanTags h, scanTags_ordered text⟩

namespace TagsIn

variable {text : Text} {tags : List Tag}

theorem standsIn_of_getElem? (h : TagsIn text tags) {index : Nat} {tag : Tag}
    (htag : tags[index]? = some tag) : tag.StandsIn text :=
  h.standsIn tag (List.mem_of_getElem? htag)

/-- A tag ends before every later tag starts. -/
theorem stop_le_start (h : TagsIn text tags) {i j : Nat} {first second : Tag}
    (hfirst : tags[i]? = some first) (hsecond : tags[j]? = some second) (hlt : i < j) :
    first.span.stop ≤ second.span.start := by
  obtain ⟨hi, rfl⟩ := List.getElem?_eq_some_iff.mp hfirst
  obtain ⟨hj, rfl⟩ := List.getElem?_eq_some_iff.mp hsecond
  exact List.pairwise_iff_getElem.mp h.ordered i j hi hj hlt

end TagsIn

namespace Pairing.Describes

variable {text : Text} {tags : List Tag} {start last : Nat} {tag : Tag} {kind : RegionKind} {region : Region}
  {interior : Span} {pairing : Pairing}

/-- Behind the last tag there is nothing to find. -/
theorem nil (h : tags.length ≤ start) : (⟨[], [], []⟩ : Pairing).Describes text tags start := by
  have hnone : ∀ index, start ≤ index → markerAt tags index = none := fun index hle => by
    rw [markerAt, List.getElem?_eq_none (h.trans hle)]
    rfl
  refine ⟨.nil fun index hle hopens => ?_, .nil fun index hle hdelimits => ?_, ?_⟩
  · simpa [hnone index hle] using hopens.marker
  · obtain ⟨kind, hdelimits⟩ := hdelimits
    simpa [hnone index hle] using hdelimits.marker
  · rw [unpairedFrom, List.drop_eq_nil_of_le h]
    rfl

/-- A tag that is no marker adds nothing. -/
theorem idle (h : pairing.Describes text tags (start + 1)) (hmarker : markerAt tags start = none) :
    pairing.Describes text tags start := by
  have hopens : ¬ Opens tags start := fun h => by simpa [hmarker] using h.marker
  have hdelimits : ¬ ∃ kind, Delimits tags start kind := fun ⟨kind, h⟩ => by simpa [hmarker] using h.marker
  exact ⟨h.regions.skip hopens, h.markers.skip hdelimits,
    h.unpaired.trans (unpairedFrom_skip text (by simp [unpairedCause?, hmarker])).symm⟩

/-- A literal block adds a region and a marker. -/
theorem literal (h : pairing.Describes text tags (start + 1)) (htag : tags[start]? = some tag)
    (hmarker : markerAt tags start = some .block) (hliteral : tag.directive = .literal)
    (hinterior : tag.literalInterior = .ok interior) :
    Describes text tags start { pairing with
      regions := ⟨.literal, tag.span, interior⟩ :: pairing.regions
      markers := (.literal, tag.span) :: pairing.markers } := by
  have hdelimits : Delimits tags start .literal := .inl ⟨hmarker, rfl⟩
  exact ⟨h.regions.cons (.inl hmarker) ⟨start, .literal htag hliteral hinterior⟩,
    h.markers.cons ⟨.literal, hdelimits⟩ ⟨hdelimits, by simp [htag]⟩,
    h.unpaired.trans (unpairedFrom_skip text (by simp [unpairedCause?, hmarker])).symm⟩

/-- A begin marker with an end adds a region and a marker. -/
theorem paired (h : pairing.Describes text tags (start + 1)) (htag : tags[start]? = some tag)
    (hpair : IsPair tags kind start last) (hregion : RegionAt text tags start last region) :
    Describes text tags start { pairing with
      regions := region :: pairing.regions
      markers := (kind, tag.span) :: pairing.markers } := by
  have hdelimits : Delimits tags start kind := .inr (.inl hpair.isPairedBegin)
  exact ⟨h.regions.cons (.inr ⟨kind, hpair.isPairedBegin⟩) ⟨last, hregion⟩,
    h.markers.cons ⟨kind, hdelimits⟩ ⟨hdelimits, by simp [htag]⟩,
    h.unpaired.trans (unpairedFrom_skip text
      (by simp [unpairedCause?, hpair.opens, hpair.isPairedBegin])).symm⟩

/-- A begin marker without an end is reported. -/
theorem unclosed (h : pairing.Describes text tags (start + 1)) (htag : tags[start]? = some tag)
    (hmarker : markerAt tags start = some (.opening kind))
    (hunclosed : ∀ index, start < index → markerAt tags index ≠ some (.closing kind)) :
    Describes text tags start { pairing with
      unpaired := (tag.span, .located (.ofText text) tag.origin (.unclosedRegion kind)) :: pairing.unpaired } := by
  obtain ⟨hopens, hdelimits⟩ := not_delimits_of_unclosed hmarker hunclosed
  have hbegin : ¬ IsPairedBegin tags kind start := fun hpaired => hopens (.inr ⟨kind, hpaired⟩)
  have hcause : unpairedCause? tags start = some (.unclosedRegion kind) := by
    simp [unpairedCause?, hmarker, hbegin]
  exact ⟨h.regions.skip hopens, h.markers.skip hdelimits,
    by rw [unpairedFrom_cons text htag hcause, ← h.unpaired]⟩

/-- An end marker opens nothing. -/
theorem not_opens_of_closing (hmarker : markerAt tags start = some (.closing kind)) : ¬ Opens tags start :=
  fun h => by simpa [hmarker] using h.marker

/-- An end marker with an open region adds a marker. -/
theorem closed (h : pairing.Describes text tags (start + 1)) (htag : tags[start]? = some tag)
    (hmarker : markerAt tags start = some (.closing kind)) (hpaired : IsPairedEnd tags kind start) :
    Describes text tags start { pairing with markers := (kind, tag.span) :: pairing.markers } := by
  have hdelimits : Delimits tags start kind := .inr (.inr hpaired)
  exact ⟨h.regions.skip (not_opens_of_closing hmarker),
    h.markers.cons ⟨kind, hdelimits⟩ ⟨hdelimits, by simp [htag]⟩,
    h.unpaired.trans (unpairedFrom_skip text (by simp [unpairedCause?, hmarker, hpaired])).symm⟩

/-- An end marker without an open region is reported. -/
theorem unmatched (h : pairing.Describes text tags (start + 1)) (htag : tags[start]? = some tag)
    (hmarker : markerAt tags start = some (.closing kind)) (hclosed : ¬ IsOpenAt tags start kind) :
    Describes text tags start { pairing with
      unpaired := (tag.span, .located (.ofText text) tag.origin (.unmatchedEnd kind)) :: pairing.unpaired } := by
  have hdelimits := not_delimits_of_unmatched hmarker hclosed
  have hend : ¬ IsPairedEnd tags kind start := fun hpaired => hdelimits ⟨kind, .inr (.inr hpaired)⟩
  have hcause : unpairedCause? tags start = some (.unmatchedEnd kind) := by
    simp [unpairedCause?, hmarker, hend]
  exact ⟨h.regions.skip (not_opens_of_closing hmarker), h.markers.skip hdelimits,
    by rw [unpairedFrom_cons text htag hcause, ← h.unpaired]⟩

end Pairing.Describes

/-- Pairing never fails on tags that stand in the text, and finds the regions and markers of the rule. -/
theorem pairMarkers_describes {text : Text} {tags : List Tag} (htags : TagsIn text tags)
    {rest : List Tag} {start : Nat} {opened : List RegionKind} (hrest : tags.drop start = rest)
    (hopened : AreOpenAt tags start opened) :
    ∃ pairing, pairMarkers text (.ofText text) opened rest = .ok pairing ∧
      pairing.Describes text tags start := by
  induction rest generalizing start opened with
  | nil => exact ⟨_, rfl, .nil (List.drop_eq_nil_iff.mp hrest)⟩
  | cons tag rest ih =>
    have htag : tags[start]? = some tag := by
      have hhead := congrArg (·[0]?) hrest
      simpa using hhead
    have hdrop : tags.drop (start + 1) = rest := by
      rw [← List.tail_drop, hrest]
      rfl
    have hstands := htags.standsIn_of_getElem? htag
    have hmarker : markerAt tags start = tag.directive.marker? := by
      rw [markerAt, htag, Option.bind_some]
    simp only [pairMarkers, bind, Except.bind, pure, Except.pure]
    cases hpart : tag.directive.marker? with
    | none =>
      rw [hpart] at hmarker
      obtain ⟨pairing, hpairing, hdescribes⟩ :=
        ih hdrop (hopened.skip (by simp [hmarker]) (by simp [hmarker]))
      exact ⟨pairing, hpairing, hdescribes.idle hmarker⟩
    | some part =>
      rw [hpart] at hmarker
      cases part with
      | block =>
        have hliteral := Directive.marker?_eq_block.mp hpart
        obtain ⟨interior, hinterior, -⟩ := literalInterior_fitsIn hstands hliteral
        obtain ⟨pairing, hpairing, hdescribes⟩ :=
          ih hdrop (hopened.skip (by simp [hmarker]) (by simp [hmarker]))
        simp only [hinterior, hpairing]
        exact ⟨_, rfl, hdescribes.literal htag hmarker hliteral hinterior⟩
      | opening kind =>
        cases hpartner : rest.find? (·.directive.marker? == some (.closing kind)) with
        | some partner =>
          obtain ⟨last, hpair, hlast⟩ := isPair_of_find? hdrop hmarker hpartner
          obtain ⟨region, hregion, -⟩ := markedRegion_bounds kind hstands
            (htags.standsIn_of_getElem? hlast) (htags.stop_le_start htag hlast hpair.lt)
          obtain ⟨pairing, hpairing, hdescribes⟩ := ih hdrop (hopened.cons hpair)
          simp only [hpartner, hregion, hpairing]
          exact ⟨_, rfl, hdescribes.paired htag hpair (.marked hpair htag hlast hregion)⟩
        | none =>
          have hunclosed : ∀ index, start < index → markerAt tags index ≠ some (.closing kind) :=
            fun index hlt => not_closes_of_find? hdrop hpartner hlt
          obtain ⟨pairing, hpairing, hdescribes⟩ := ih hdrop (hopened.unclosed hmarker hunclosed)
          simp only [hpartner, hpairing]
          exact ⟨_, rfl, hdescribes.unclosed htag hmarker hunclosed⟩
      | closing kind =>
        obtain ⟨pairing, hpairing, hdescribes⟩ := ih hdrop (hopened.filter hmarker)
        simp only [hpairing]
        by_cases hmem : kind ∈ opened
        · simp only [if_pos hmem]
          exact ⟨_, rfl, hdescribes.closed htag hmarker
            ((isOpenAt_iff_of_closing hmarker).mp ((hopened kind).mp hmem))⟩
        · simp only [if_neg hmem]
          exact ⟨_, rfl, hdescribes.unmatched htag hmarker fun h => hmem ((hopened kind).mpr h)⟩

end TaggedHeader
