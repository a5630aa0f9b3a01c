import Mathlib.Data.List.Induction
import Mathlib.Data.List.Nodup
import Mathlib.Data.List.Perm.Subperm
import TaggedHeader.FileTree
import TaggedHeader.Proofs.Path

/-!
# Entries in a tree of files

A tree of files is well-formed when directories hold all that stands in it, under names that files can have. Making
directories and writing files keeps it so. Whether it is can be decided by a look at the locations recorded.
-/

namespace TaggedHeader

open Text

namespace FileTree

variable {tree : FileTree} {location parent : Location} {entry : FileEntry} {name : FileName}

/-- What holds of every tree of files: the working directory and all that contains something are directories,
no location occurs twice, and names are those that files can have. -/
structure WellFormed (tree : FileTree) : Prop where
  working : tree.entry? tree.workingDirectory = some .directory
  above : ∀ location name entry, tree.entry? (location ++ [name]) = some entry →
    tree.entry? location = some .directory
  nodup : (tree.entries.map Prod.fst).Nodup
  names : ∀ location ∈ tree.entries.map Prod.fst, ∀ name ∈ location, IsFileName name

/-- No symbolic link stands in a tree. -/
def LinkFree (tree : FileTree) : Prop := ∀ location target, tree.entry? location ≠ some (.link target)

/-- What stands at a location other than the root is the first entry recorded for it. -/
theorem entry?_of_ne_nil (h : location ≠ []) :
    tree.entry? location = (tree.entries.find? (·.1 == location)).map Prod.snd := by
  cases location with
  | nil => exact absurd rfl h
  | cons first rest => rfl

/-- The steps of the way to a location are different locations. -/
theorem nodup_map_take (location : Location) :
    ((List.range location.length).map fun count => location.take (count + 1)).Nodup := by
  refine List.nodup_range.map_on fun first hfirst second hsecond heq => ?_
  have hlength := congrArg List.length heq
  simp only [List.length_take] at hlength
  rw [List.mem_range] at hfirst hsecond
  omega

/-- What is recorded in a tree that holds its working directory alone. -/
theorem mem_entries_empty {workingDirectory : Location} {item : Location × FileEntry} :
    item ∈ (empty workingDirectory).entries ↔
      item.2 = .directory ∧ item.1 ≠ [] ∧ item.1 <+: workingDirectory := by
  simp only [empty, List.map_map, List.mem_map, List.mem_range, Function.comp]
  constructor
  · rintro ⟨count, hcount, rfl⟩
    refine ⟨rfl, fun hnil => ?_, List.take_prefix _ _⟩
    have hlength := congrArg List.length hnil
    simp only [List.length_take, List.length_nil] at hlength
    omega
  · rintro ⟨hentry, hne, hprefix⟩
    have hlength := hprefix.length_le
    have hpositive := List.length_pos_iff.mpr hne
    refine ⟨item.1.length - 1, by omega, ?_⟩
    rw [Nat.sub_add_cancel hpositive, ← List.prefix_iff_eq_take.mp hprefix, ← hentry]

/-- In a tree that holds its working directory alone stand the directories on the way to it. -/
theorem entry?_empty {workingDirectory : Location} : FileTree.entry? (empty workingDirectory) location = some entry ↔
    entry = .directory ∧ location <+: workingDirectory := by
  by_cases hroot : location = []
  · subst hroot
    exact ⟨fun h => ⟨(Option.some.inj h).symm, List.nil_prefix⟩, fun h => congrArg some h.1.symm⟩
  rw [entry?_of_ne_nil hroot, Option.map_eq_some_iff]
  constructor
  · rintro ⟨item, hfind, rfl⟩
    obtain ⟨hdirectory, -, hprefix⟩ := mem_entries_empty.mp (List.mem_of_find?_eq_some hfind)
    have hlocation := List.find?_some hfind
    exact ⟨hdirectory, beq_iff_eq.mp hlocation ▸ hprefix⟩
  · rintro ⟨rfl, hprefix⟩
    have hmem : (location, FileEntry.directory) ∈ (empty workingDirectory).entries :=
      mem_entries_empty.mpr ⟨rfl, hroot, hprefix⟩
    cases hfind : (empty workingDirectory).entries.find? (·.1 == location) with
    | none => exact absurd (beq_self_eq_true location) (List.find?_eq_none.mp hfind _ hmem)
    | some item => exact ⟨item, rfl, (mem_entries_empty.mp (List.mem_of_find?_eq_some hfind)).1⟩

/-- What is found once the entry recorded for a location was replaced. -/
theorem find?_replaced {entries : List (Location × FileEntry)} (hthere : entries.any (·.1 == location) = true)
    (other : Location) :
    ((entries.map fun old => if old.1 == location then (location, entry) else old).find? (·.1 == other)).map
        Prod.snd =
      if other = location then some entry else (entries.find? (·.1 == other)).map Prod.snd := by
  have hsame : ((fun item : Location × FileEntry => item.1 == other) ∘ fun old =>
      if old.1 == location then (location, entry) else old) = fun item => item.1 == other := by
    funext item
    by_cases hitem : item.1 = location <;> simp [hitem]
  rw [List.find?_map, hsame]
  cases hfind : entries.find? (·.1 == other) with
  | none =>
    rw [if_neg fun heq => ?_]
    · rfl
    obtain ⟨item, hitem, hlocation⟩ := List.any_eq_true.mp hthere
    exact List.find?_eq_none.mp hfind item hitem (heq ▸ hlocation)
  | some found =>
    have hfound := List.find?_some hfind
    have hlocation : found.1 = other := beq_iff_eq.mp hfound
    by_cases heq : other = location <;> simp [hlocation, heq]

/-- What is found once an entry was recorded for a location that had none. -/
theorem find?_recorded {entries : List (Location × FileEntry)} (hfresh : ¬ entries.any (·.1 == location) = true)
    (other : Location) :
    ((entries ++ [(location, entry)]).find? (·.1 == other)).map Prod.snd =
      if other = location then some entry else (entries.find? (·.1 == other)).map Prod.snd := by
  rw [List.find?_append]
  by_cases heq : other = location
  · subst heq
    have hnone : entries.find? (·.1 == other) = none :=
      List.find?_eq_none.mpr fun item hitem hlocation => hfresh (List.any_eq_true.mpr ⟨item, hitem, hlocation⟩)
    simp [hnone]
  · have hother : List.find? (·.1 == other) [(location, entry)] = none := by simp [Ne.symm heq]
    rw [hother, Option.or_none, if_neg heq]

/-- An entry is at the location where it was put, and all others are where they were. -/
theorem entry?_setEntry (h : location ≠ []) (other : Location) :
    FileTree.entry? (tree.setEntry location entry) other =
      if other = location then some entry else tree.entry? other := by
  by_cases hroot : other = []
  · subst hroot
    rw [if_neg (Ne.symm h)]
    rfl
  rw [entry?_of_ne_nil hroot, entry?_of_ne_nil hroot, setEntry]
  split
  · rename_i hthere
    exact find?_replaced hthere other
  · rename_i hfresh
    exact find?_recorded hfresh other

theorem workingDirectory_setEntry : (tree.setEntry location entry).workingDirectory = tree.workingDirectory := by
  rw [setEntry]
  split <;> rfl

/-- The locations after an entry was put somewhere. -/
theorem locations_setEntry : (tree.setEntry location entry).entries.map Prod.fst =
    if location ∈ tree.entries.map Prod.fst then tree.entries.map Prod.fst
    else tree.entries.map Prod.fst ++ [location] := by
  have hany : tree.entries.any (·.1 == location) = true ↔ location ∈ tree.entries.map Prod.fst := by
    simp [List.any_eq_true]
  rw [setEntry]
  by_cases hthere : location ∈ tree.entries.map Prod.fst
  · rw [if_pos (hany.mpr hthere), if_pos hthere, List.map_map]
    refine List.map_congr_left fun item _ => ?_
    by_cases hitem : item.1 = location <;> simp [hitem]
  · rw [if_neg (mt hany.mp hthere), if_neg hthere, List.map_append]
    rfl

/-- What is recorded at a location is all that stands there. -/
theorem mem_locations (h : tree.entry? location = some entry) (hne : location ≠ []) :
    location ∈ tree.entries.map Prod.fst := by
  rw [entry?_of_ne_nil hne] at h
  obtain ⟨item, hfind, -⟩ := Option.map_eq_some_iff.mp h
  have hlocation := List.find?_some hfind
  exact List.mem_map.mpr ⟨item, List.mem_of_find?_eq_some hfind, beq_iff_eq.mp hlocation⟩

/-- Something stands at every location that is recorded. -/
theorem exists_entry_of_mem_locations (h : location ∈ tree.entries.map Prod.fst) :
    ∃ entry, tree.entry? location = some entry := by
  by_cases hroot : location = []
  · exact ⟨.directory, hroot ▸ rfl⟩
  obtain ⟨item, hitem, rfl⟩ := List.mem_map.mp h
  rw [entry?_of_ne_nil hroot]
  cases hfind : tree.entries.find? (·.1 == item.1) with
  | none => exact absurd (beq_self_eq_true item.1) (List.find?_eq_none.mp hfind item hitem)
  | some found => exact ⟨found.2, rfl⟩

namespace WellFormed

/-- Putting an entry into a directory, in place of nothing or of a file, leaves a tree of files. -/
theorem setEntry (h : tree.WellFormed) (hparent : tree.entry? parent = some .directory) (hname : IsFileName name)
    (hfree : tree.entry? (parent ++ [name]) ≠ some .directory) :
    (tree.setEntry (parent ++ [name]) entry).WellFormed := by
  have hne : parent ++ [name] ≠ [] := List.concat_ne_nil name parent
  have hdirectory : ∀ location, tree.entry? location = some .directory →
      FileTree.entry? (tree.setEntry (parent ++ [name]) entry) location = some .directory := by
    intro location hlocation
    rw [entry?_setEntry hne, if_neg ?_, hlocation]
    rintro rfl
    exact hfree hlocation
  constructor
  · rw [workingDirectory_setEntry]
    exact hdirectory _ h.working
  · intro location other item hitem
    rw [entry?_setEntry hne] at hitem
    apply hdirectory
    split at hitem
    · rename_i heq
      rw [(List.append_inj' heq rfl).1]
      exact hparent
    · exact h.above location other item hitem
  · rw [locations_setEntry]
    split
    · exact h.nodup
    · rename_i hnew
      exact List.nodup_append.mpr ⟨h.nodup, by simp, fun location hlocation other hother => by
        rw [List.mem_singleton.mp hother]
        rintro rfl
        exact hnew hlocation⟩
  · rw [locations_setEntry]
    split
    · exact h.names
    · intro location hlocation
      rcases List.mem_append.mp hlocation with hlocation | hlocation
      · exact h.names location hlocation
      · rw [List.mem_singleton.mp hlocation]
        intro other hother
        rcases List.mem_append.mp hother with hother | hother
        · exact h.names parent (mem_locations hparent (List.ne_nil_of_mem hother)) other hother
        · rw [List.mem_singleton.mp hother]
          exact hname

/-- What contains something is a directory. -/
theorem dropLast (h : tree.WellFormed) (hlocation : tree.entry? location = some entry) :
    tree.entry? location.dropLast = some .directory := by
  rcases List.eq_nil_or_concat location with rfl | ⟨front, last, rfl⟩
  · rfl
  · rw [List.concat_eq_append] at hlocation ⊢
    rw [List.dropLast_concat]
    exact h.above front last entry hlocation

/-- All that stands on the way to something are directories. -/
theorem directory_above (h : tree.WellFormed) {more : Location} (hmore : more ≠ [])
    (hlocation : tree.entry? (location ++ more) = some entry) : tree.entry? location = some .directory := by
  induction more using List.reverseRecOn generalizing entry with
  | nil => exact absurd rfl hmore
  | append_singleton more name ih =>
    rw [← List.append_assoc] at hlocation
    have habove := h.above _ name entry hlocation
    by_cases hone : more = []
    · rwa [hone, List.append_nil] at habove
    · exact ih hone habove

/-- Nothing stands deeper than there are entries, since there is an entry for each step of the way. -/
theorem length_le (h : tree.WellFormed) (hlocation : tree.entry? location = some entry) :
    location.length ≤ tree.entries.length := by
  have hway : (List.range location.length).map (fun count => location.take (count + 1)) ⊆
      tree.entries.map Prod.fst := by
    intro place hplace
    obtain ⟨count, hcount, rfl⟩ := List.mem_map.mp hplace
    rw [List.mem_range] at hcount
    have hne : location.take (count + 1) ≠ [] := by
      rw [← List.length_pos_iff, List.length_take]
      omega
    by_cases hmore : location.drop (count + 1) = []
    · rw [← List.take_append_drop (count + 1) location, hmore, List.append_nil] at hlocation
      exact mem_locations hlocation hne
    · rw [← List.take_append_drop (count + 1) location] at hlocation
      exact mem_locations (h.directory_above hmore hlocation) hne
  have hlength := (List.subperm_of_subset (nodup_map_take location) hway).length_le
  simpa using hlength

end WellFormed

/-- A tree of files without symbolic links. -/
structure IsPlain (tree : FileTree) : Prop where
  wellFormed : tree.WellFormed
  linkFree : tree.LinkFree

/-- Only the locations that are recorded need to be looked at. -/
theorem wellFormed_iff : tree.WellFormed ↔ tree.entry? tree.workingDirectory = some .directory ∧
    (tree.entries.map Prod.fst).Nodup ∧ ∀ location ∈ tree.entries.map Prod.fst,
      tree.entry? location.dropLast = some .directory ∧ ∀ name ∈ location, IsFileName name := by
  constructor
  · intro h
    refine ⟨h.working, h.nodup, fun location hlocation => ?_⟩
    obtain ⟨entry, hentry⟩ := exists_entry_of_mem_locations hlocation
    exact ⟨h.dropLast hentry, h.names location hlocation⟩
  · rintro ⟨hworking, hnodup, hall⟩
    refine ⟨hworking, fun location name entry h => ?_, hnodup, fun location hlocation => (hall location hlocation).2⟩
    have hlocation := hall _ (mem_locations h (List.concat_ne_nil name location))
    rw [List.dropLast_concat] at hlocation
    exact hlocation.1

instance : Decidable tree.WellFormed := decidable_of_iff _ wellFormed_iff.symm

/-- Links as well stand at locations that are recorded only. -/
theorem isPlain_iff : tree.IsPlain ↔ tree.entry? tree.workingDirectory = some .directory ∧
    (tree.entries.map Prod.fst).Nodup ∧ ∀ location ∈ tree.entries.map Prod.fst,
      tree.entry? location.dropLast = some .directory ∧ (∀ name ∈ location, IsFileName name) ∧
      (tree.entry? location).all fun entry => entry matches .file _ | .directory := by
  constructor
  · intro h
    obtain ⟨hworking, hnodup, hall⟩ := wellFormed_iff.mp h.wellFormed
    refine ⟨hworking, hnodup, fun location hlocation => ?_⟩
    obtain ⟨habove, hnames⟩ := hall location hlocation
    obtain ⟨entry, hentry⟩ := exists_entry_of_mem_locations hlocation
    refine ⟨habove, hnames, ?_⟩
    cases entry with
    | file content => rw [hentry]; rfl
    | directory => rw [hentry]; rfl
    | link target => exact absurd hentry (h.linkFree location target)
  · rintro ⟨hworking, hnodup, hall⟩
    refine ⟨wellFormed_iff.mpr ⟨hworking, hnodup, fun location hlocation =>
      ⟨(hall location hlocation).1, (hall location hlocation).2.1⟩⟩, fun location target h => ?_⟩
    have hne : location ≠ [] := by
      rintro rfl
      cases h
    have hnot := (hall location (mem_locations h hne)).2.2
    rw [h] at hnot
    cases hnot

instance : Decidable tree.IsPlain := decidable_of_iff _ isPlain_iff.symm

namespace IsPlain

/-- A working directory by itself is a tree of files. -/
theorem empty {workingDirectory : Location} (hnames : ∀ name ∈ workingDirectory, IsFileName name) :
    (FileTree.empty workingDirectory).IsPlain where
  wellFormed := {
    working := entry?_empty.mpr ⟨rfl, List.prefix_refl workingDirectory⟩
    above := fun location name entry h =>
      entry?_empty.mpr ⟨rfl, (List.prefix_append location [name]).trans (entry?_empty.mp h).2⟩
    nodup := by
      rw [FileTree.empty, List.map_map, List.map_map]
      exact nodup_map_take workingDirectory
    names := fun location hlocation name hname => by
      obtain ⟨item, hitem, rfl⟩ := List.mem_map.mp hlocation
      exact hnames name ((mem_entries_empty.mp hitem).2.2.subset hname) }
  linkFree := fun location target h => by cases (entry?_empty.mp h).1

end IsPlain

end FileTree
end TaggedHeader
