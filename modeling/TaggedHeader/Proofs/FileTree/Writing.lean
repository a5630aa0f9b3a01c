import TaggedHeader.Proofs.FileTree.Following

/-!
# Writing into a tree of files

Writing a file changes what stands at one location, and making directories puts them where nothing was.
`FileTree.Extends` says this of any number of such steps: outside the locations written all entries stay, and
at most directories are added. Links stay where they are, so every path leads to where it led, and what becomes
of a path that led nowhere is the one thing that can change: `LedBefore` says that it leads to nothing old.
-/

namespace TaggedHeader

open Text

namespace FileTree

variable {tree grown : FileTree} {location : Location} {name : FileName} {steps : List Path.Component}
  {path : Path}

/-- A tree after files were written to some locations and directories were made where nothing was. Locations that
are new are recorded behind the others. -/
structure Extends (tree grown : FileTree) (written : List Location) : Prop where
  workingDirectory : grown.workingDirectory = tree.workingDirectory
  recorded : tree.entries.map Prod.fst <+: grown.entries.map Prod.fst
  kept : ∀ location, location ∉ written → grown.entry? location = tree.entry? location ∨
    tree.entry? location = none ∧ grown.entry? location = some .directory
  files : ∀ location, location ∈ written → tree.TakesFile location ∧
    ∃ content, grown.entry? location = some (.file content)

/-- Whether a path leads to something that was there before only if it led to it before. -/
def LedBefore (tree grown : FileTree) (path : Path) : Prop :=
  ∀ location, tree.entry? location ≠ none → grown.locate path = .ok location → tree.locate path = .ok location

theorem TakesFile.ne_directory (h : tree.TakesFile location) : tree.entry? location ≠ some .directory := by
  intro hdirectory
  obtain ⟨content, hfile⟩ := h _ hdirectory
  cases hfile

theorem TakesFile.ne_link (h : tree.TakesFile location) (target : Path) :
    tree.entry? location ≠ some (.link target) := by
  intro hlink
  obtain ⟨content, hfile⟩ := h _ hlink
  cases hfile

namespace Extends

variable {written more : List Location}

theorem refl (tree : FileTree) : tree.Extends tree [] := ⟨rfl, List.prefix_rfl, fun _ _ => .inl rfl, by simp⟩

/-- Directories stay directories. -/
theorem directory (h : tree.Extends grown written) (hlocation : tree.entry? location = some .directory) :
    grown.entry? location = some .directory := by
  by_cases hwritten : location ∈ written
  · exact absurd hlocation (h.files location hwritten).1.ne_directory
  · rcases h.kept location hwritten with hsame | ⟨hnone, -⟩
    · rw [hsame, hlocation]
    · rw [hnone] at hlocation
      cases hlocation

/-- A file that is not written stays as it is. -/
theorem file (h : tree.Extends grown written) (hlocation : location ∉ written) {content : Content} :
    grown.entry? location = some (.file content) ↔ tree.entry? location = some (.file content) := by
  rcases h.kept location hlocation with hsame | ⟨hnone, hmade⟩
  · rw [hsame]
  · rw [hnone, hmade]
    simp

/-- Links stay, and none is made. -/
theorem link (h : tree.Extends grown written) {target : Path} :
    grown.entry? location = some (.link target) ↔ tree.entry? location = some (.link target) := by
  by_cases hwritten : location ∈ written
  · obtain ⟨htakes, content, hfile⟩ := h.files location hwritten
    exact ⟨fun hlink => (FileEntry.noConfusion (Option.some.inj (hfile.symm.trans hlink))),
      fun hlink => absurd hlink (htakes.ne_link target)⟩
  · rcases h.kept location hwritten with hsame | ⟨hnone, hmade⟩
    · rw [hsame]
    · rw [hnone, hmade]
      simp

/-- Without links there are none afterwards. -/
theorem isPlain (h : tree.Extends grown written) (htree : tree.IsPlain) (hgrown : grown.WellFormed) : grown.IsPlain :=
  ⟨hgrown, fun location target hlink => htree.linkFree location target (h.link.mp hlink)⟩

/-- Where a file was is a file. -/
theorem exists_file (h : tree.Extends grown written) {content : Content}
    (hentry : tree.entry? location = some (.file content)) :
    ∃ content, grown.entry? location = some (.file content) := by
  by_cases hwritten : location ∈ written
  · exact (h.files location hwritten).2
  · exact ⟨content, (h.file hwritten).mpr hentry⟩

/-- Where a file could be written there is a directory, or a file can still be written. -/
theorem takesFile (h : tree.Extends grown written) (htakes : tree.TakesFile location) :
    grown.entry? location = some .directory ∨ grown.TakesFile location := by
  by_cases hwritten : location ∈ written
  · obtain ⟨-, content, hfile⟩ := h.files location hwritten
    exact .inr fun entry hentry => ⟨content, Option.some.inj (hentry.symm.trans hfile)⟩
  · rcases h.kept location hwritten with hsame | ⟨-, hmade⟩
    · exact .inr fun entry hentry => htakes entry (hsame.symm.trans hentry)
    · exact .inl hmade

/-- Steps lead to where they did, over the same links. -/
theorem follows (h : tree.Extends grown written) {links : Nat} {here : Location}
    (hfollows : tree.Follows links here steps location) : grown.Follows links here steps location := by
  induction hfollows with
  | nil => exact .nil
  | root _ ih => exact .root ih
  | current _ ih => exact .current ih
  | parent _ ih => exact .parent ih
  | directory hentry _ ih => exact .directory (h.directory hentry) ih
  | last htakes => exact (h.takesFile htakes).elim (fun hdirectory => .directory hdirectory .nil) .last
  | link hentry _ ih => exact .link (h.link.mpr hentry) ih

/-- Paths lead to where they did. -/
theorem locate (h : tree.Extends grown written) (hlocate : tree.locate path = .ok location) :
    grown.locate path = .ok location := by
  obtain ⟨htext, hfollows⟩ := locate_eq_ok_iff.mp hlocate
  rw [locate_eq_ok_iff, h.workingDirectory]
  exact ⟨htext, h.follows hfollows⟩

/-- Steps lead to where they did. -/
theorem leads (h : tree.Extends grown written) (hleads : tree.Leads tree.workingDirectory steps location) :
    grown.Leads grown.workingDirectory steps location := by
  rw [h.workingDirectory]
  exact hleads.mono fun _ => h.directory

/-- A path to a directory still leads there. -/
theorem lookup_directory (h : tree.Extends grown written) (hlookup : tree.lookup path = .ok (location, .directory)) :
    grown.lookup path = .ok (location, .directory) := by
  obtain ⟨hlocate, hentry⟩ := lookup_eq_ok_iff.mp hlookup
  exact lookup_eq_ok_iff.mpr ⟨h.locate hlocate, h.directory hentry⟩

theorem isDirectory (h : tree.Extends grown written) (hdirectory : tree.isDirectory path = true) :
    grown.isDirectory path = true := by
  obtain ⟨location, hlookup⟩ := isDirectory_iff.mp hdirectory
  exact isDirectory_iff.mpr ⟨location, h.lookup_directory hlookup⟩

/-- A path to a file still leads to one. -/
theorem isFile (h : tree.Extends grown written) (hfile : tree.isFile path = true) : grown.isFile path = true := by
  obtain ⟨location, content, hlookup⟩ := isFile_iff.mp hfile
  obtain ⟨hlocate, hentry⟩ := lookup_eq_ok_iff.mp hlookup
  obtain ⟨content', hentry'⟩ := h.exists_file hentry
  exact isFile_iff.mpr ⟨location, content', lookup_eq_ok_iff.mpr ⟨h.locate hlocate, hentry'⟩⟩

/-- What is a directory and was something before was a directory. -/
theorem directory_before (h : tree.Extends grown written) (hentry : grown.entry? location = some .directory)
    (hsome : tree.entry? location ≠ none) : tree.entry? location = some .directory := by
  by_cases hwritten : location ∈ written
  · obtain ⟨-, content, hfile⟩ := h.files location hwritten
    cases hentry.symm.trans hfile
  · rcases h.kept location hwritten with hsame | ⟨hnone, -⟩
    · rw [← hsame, hentry]
    · exact absurd hnone hsome

/-- A path that leads to a directory which was there before, and to nothing old unless it did so before, led to this
directory. -/
theorem lookup_directory_before (h : tree.Extends grown written) (hbefore : LedBefore tree grown path)
    (hlookup : grown.lookup path = .ok (location, .directory)) (hsome : tree.entry? location ≠ none) :
    tree.lookup path = .ok (location, .directory) := by
  obtain ⟨hlocate, hentry⟩ := lookup_eq_ok_iff.mp hlookup
  exact lookup_eq_ok_iff.mpr ⟨hbefore location hsome hlocate, h.directory_before hentry hsome⟩

/-- A file that is none of those written, at the end of a path that leads to nothing old unless it did so before, is
the file that the path led to. -/
theorem lookup_file_iff (h : tree.Extends grown written) (hbefore : LedBefore tree grown path)
    (hnot : ∀ location ∈ written, grown.locate path ≠ .ok location) {content : Content} :
    grown.lookup path = .ok (location, .file content) ↔ tree.lookup path = .ok (location, .file content) := by
  have hfile : grown.locate path = .ok location → (grown.entry? location = some (.file content) ↔
      tree.entry? location = some (.file content)) := fun hlocate =>
    h.file fun hwritten => hnot location hwritten hlocate
  rw [lookup_eq_ok_iff, lookup_eq_ok_iff]
  constructor
  · rintro ⟨hlocate, hentry⟩
    have hentry := (hfile hlocate).mp hentry
    exact ⟨hbefore location (by simp [hentry]) hlocate, hentry⟩
  · rintro ⟨hlocate, hentry⟩
    have hlocate := h.locate hlocate
    exact ⟨hlocate, (hfile hlocate).mpr hentry⟩

theorem trans {last : FileTree} (h : tree.Extends grown written) (h' : grown.Extends last more) :
    tree.Extends last (written ++ more) := by
  refine ⟨h'.workingDirectory.trans h.workingDirectory, h.recorded.trans h'.recorded, fun location hnot => ?_,
    fun location hmem => ?_⟩
  · rw [List.mem_append, not_or] at hnot
    rcases h.kept location hnot.1 with hsame | ⟨hnone, hmade⟩
    · rw [← hsame]
      exact h'.kept location hnot.2
    · exact .inr ⟨hnone, h'.directory hmade⟩
  · by_cases hmore : location ∈ more
    · refine ⟨fun entry hentry => ?_, (h'.files location hmore).2⟩
      have htakes := (h'.files location hmore).1
      cases entry with
      | file content => exact ⟨content, rfl⟩
      | directory => exact absurd (h.directory hentry) htakes.ne_directory
      | link target => exact absurd (h.link.mpr hentry) (htakes.ne_link target)
    · obtain ⟨htakes, content, hfile⟩ := h.files location ((List.mem_append.mp hmem).resolve_right hmore)
      exact ⟨htakes, content, (h'.file hmore).mpr hfile⟩

/-- What is put somewhere new is recorded behind the rest. -/
theorem recorded_setEntry {entry : FileEntry} :
    tree.entries.map Prod.fst <+: (tree.setEntry location entry).entries.map Prod.fst := by
  rw [locations_setEntry]
  split
  · exact List.prefix_rfl
  · exact List.prefix_append _ _

/-- Putting a directory where nothing was. -/
theorem setDirectory (hne : location ≠ []) (hfree : tree.entry? location = none) :
    tree.Extends (tree.setEntry location .directory) [] := by
  refine ⟨workingDirectory_setEntry, recorded_setEntry, fun other _ => ?_, by simp⟩
  rw [entry?_setEntry hne]
  split
  · rename_i heq
    exact .inr ⟨heq ▸ hfree, rfl⟩
  · exact .inl rfl

/-- Putting a file where one can be written. -/
theorem setFile (hne : location ≠ []) (htakes : tree.TakesFile location) (content : Content) :
    tree.Extends (tree.setEntry location (.file content)) [location] := by
  refine ⟨workingDirectory_setEntry, recorded_setEntry, fun other hother => ?_, fun other hother => ?_⟩
  · rw [entry?_setEntry hne, if_neg (fun heq => hother (List.mem_singleton.mpr heq))]
    exact .inl rfl
  · obtain rfl := List.mem_singleton.mp hother
    exact ⟨htakes, content, by rw [entry?_setEntry hne, if_pos rfl]⟩

end Extends

/-- Whether a location is where the first of some steps lead. -/
def OnTheWay (tree : FileTree) (steps : List Path.Component) (location : Location) : Prop :=
  ∃ front, front <+: steps ∧ tree.Leads tree.workingDirectory front location

/-- A location on the way stays there. -/
theorem Extends.onTheWay {written : List Location} (h : tree.Extends grown written)
    (hway : tree.OnTheWay steps location) : grown.OnTheWay steps location := by
  obtain ⟨front, hfront, hleads⟩ := hway
  exact ⟨front, hfront, h.leads hleads⟩

/-- A tree in which every directory is one that there was before or lies on the way that steps go. -/
def GrowsAlong (tree grown : FileTree) (steps : List Path.Component) : Prop :=
  ∀ location, grown.entry? location = some .directory →
    tree.entry? location = some .directory ∨ grown.OnTheWay steps location

theorem GrowsAlong.refl (tree : FileTree) (steps : List Path.Component) : tree.GrowsAlong tree steps :=
  fun _ => .inl

/-- Growing along the first steps and then along all of them. -/
theorem GrowsAlong.trans {last : FileTree} {front : List Path.Component} (h : tree.GrowsAlong grown front)
    (hfront : front <+: steps) {written : List Location} (hextends : grown.Extends last written)
    (h' : grown.GrowsAlong last steps) : tree.GrowsAlong last steps := by
  intro location hlocation
  rcases h' location hlocation with hgrown | hway
  · refine (h location hgrown).imp_right fun ⟨front', hfront', hleads⟩ => ?_
    exact ⟨front', hfront'.trans hfront, hextends.leads hleads⟩
  · exact .inr hway

theorem isDirectory_of_locateDirectory (h : tree.locateDirectory steps = .ok location) :
    tree.entry? location = some .directory := by
  obtain ⟨found, -, hfound⟩ := bind_eq_ok_iff.mp h
  split at hfound
  · rename_i hdirectory
    cases hfound
    exact hdirectory
  · cases hfound
  · cases hfound

namespace WellFormed

/-- Making a directory puts it where nothing was, or fails. -/
theorem makeDirectory (h : tree.WellFormed) (hnames : ∀ name, .normal name ∈ steps → IsFileName name)
    (hmade : tree.makeDirectory steps = .ok grown) : tree.Extends grown [] ∧ grown.WellFormed := by
  obtain ⟨parent, hparent, hmade⟩ := bind_eq_ok_iff.mp hmade
  have hdirectory := isDirectory_of_locateDirectory hparent
  split at hmade
  · rename_i name hlast
    have hname := hnames name (List.mem_of_getLast? hlast)
    split at hmade
    · cases hmade
    · rename_i hfree
      cases hmade
      exact ⟨.setDirectory (List.concat_ne_nil name parent) hfree, h.setEntry hdirectory hname (by simp [hfree])⟩
  · cases hmade

/-- Making directories puts them where nothing was, whether or not all can be made. -/
theorem makeDirectories (h : tree.WellFormed) (hnames : ∀ name, .normal name ∈ steps → IsFileName name) :
    tree.Extends (tree.makeDirectories steps).1 [] ∧ (tree.makeDirectories steps).1.WellFormed := by
  have hidle : tree.Extends tree [] ∧ tree.WellFormed := ⟨.refl tree, h⟩
  fun_induction FileTree.makeDirectories tree steps with
  | case1 => exact hidle
  | case2 steps hsteps made hmade => exact h.makeDirectory hnames hmade
  | case3 steps hsteps hnone above error habove ih =>
    have habove' := ih fun name hname => hnames name (List.dropLast_subset _ hname)
    rw [habove] at habove'
    exact habove'
  | case4 steps hsteps hnone above habove made hmade ih =>
    have habove' := ih fun name hname => hnames name (List.dropLast_subset _ hname)
    rw [habove] at habove'
    obtain ⟨hextends, hgrown⟩ := habove'.2.makeDirectory hnames hmade
    exact ⟨habove'.1.trans hextends, hgrown⟩
  | case5 steps hsteps hnone above habove error herror ih =>
    have habove' := ih fun name hname => hnames name (List.dropLast_subset _ hname)
    rw [habove] at habove'
    exact habove'
  | case6 steps hsteps error hne herror => exact hidle

end WellFormed

namespace IsPlain

/-- Without links, steps that a directory is found by lead to it. -/
theorem locateDirectory (h : tree.IsPlain) (hfound : tree.locateDirectory steps = .ok location) :
    tree.Leads tree.workingDirectory steps location := by
  obtain ⟨found, hwalk, hfound⟩ := bind_eq_ok_iff.mp hfound
  obtain ⟨between, hleads, hlast⟩ := Leads.exists_of_walk h.linkFree (List.cons_ne_nil _ _) hwalk
  rw [walk_current, walk_nil] at hlast
  obtain rfl := Except.ok.inj hlast
  split at hfound
  · cases hfound
    exact hleads
  · cases hfound
  · cases hfound

/-- A directory is made where the steps lead. -/
theorem growsAlong_makeDirectory (h : tree.IsPlain) (hmade : tree.makeDirectory steps = .ok grown) :
    tree.GrowsAlong grown steps := by
  obtain ⟨parent, hparent, hmade⟩ := bind_eq_ok_iff.mp hmade
  have hleads := h.locateDirectory hparent
  split at hmade
  · rename_i name hlast
    split at hmade
    · cases hmade
    · rename_i hfree
      cases hmade
      obtain ⟨front, rfl⟩ := List.getLast?_eq_some_iff.mp hlast
      rw [List.dropLast_concat] at hleads
      have hne := List.concat_ne_nil name parent
      have hextends := Extends.setDirectory hne hfree
      intro location hlocation
      by_cases hplace : location = parent ++ [name]
      · subst hplace
        have hlast := Leads.normal hlocation (.nil _)
        exact .inr ⟨front ++ [.normal name], List.prefix_rfl, (hextends.leads hleads).append hlast⟩
      · rw [entry?_setEntry hne, if_neg hplace] at hlocation
        exact .inl hlocation
  · cases hmade

/-- Directories are made on the way, whether or not all can be made. -/
theorem growsAlong_makeDirectories (h : tree.IsPlain) (hnames : ∀ name, .normal name ∈ steps → IsFileName name) :
    tree.GrowsAlong (tree.makeDirectories steps).1 steps := by
  fun_induction FileTree.makeDirectories tree steps with
  | case1 => exact .refl tree []
  | case2 steps hsteps made hmade => exact h.growsAlong_makeDirectory hmade
  | case3 steps hsteps hnone above error habove ih | case5 steps hsteps hnone above habove error herror ih =>
    have hgrows := ih fun name hname => hnames name (List.dropLast_subset _ hname)
    rw [habove] at hgrows
    exact hgrows.trans (List.dropLast_prefix steps) (.refl above) (.refl above steps)
  | case4 steps hsteps hnone above habove made hmade ih =>
    have hnames' := fun name hname => hnames name (List.dropLast_subset _ hname)
    have hgrows := ih hnames'
    obtain ⟨hextends, hgrown⟩ := h.wellFormed.makeDirectories hnames'
    rw [habove] at hgrows hextends hgrown
    exact hgrows.trans (List.dropLast_prefix steps) (hgrown.makeDirectory hnames hmade).1
      ((hextends.isPlain h hgrown).growsAlong_makeDirectory hmade)
  | case6 steps hsteps error hne herror => exact .refl tree steps

end IsPlain

/-- Writing puts a file where the path leads to, a place in a directory where a file can be written. -/
theorem WellFormed.write_eq_ok (hwell : tree.WellFormed) {content : Content}
    (h : tree.write path content = (grown, none)) : ∃ parent name, tree.locate path = .ok (parent ++ [name]) ∧
      tree.entry? parent = some .directory ∧ IsFileName name ∧ tree.TakesFile (parent ++ [name]) ∧
        grown = tree.setEntry (parent ++ [name]) (.file content) := by
  unfold FileTree.write at h
  simp only at h
  split at h
  · rename_i written hresult
    cases h
    by_cases hempty : path.text = []
    · rw [if_pos hempty] at hresult
      cases hresult
    · by_cases hasks : path.asksForDirectory = true
      · rw [if_neg hempty, if_pos hasks] at hresult
        obtain ⟨_, -, hthrow⟩ := bind_eq_ok_iff.mp hresult
        cases hthrow
      · rw [if_neg hempty, if_neg hasks] at hresult
        obtain ⟨location, hlocate, hresult⟩ := bind_eq_ok_iff.mp hresult
        split at hresult
        · cases hresult
        · rename_i hfree
          cases hresult
          obtain ⟨-, parent, name, rfl, hparent, hname, htakes⟩ := (hwell.locate_ends hlocate).resolve_left hfree
          exact ⟨parent, name, hlocate, hparent, hname, htakes, rfl⟩
  · cases h

/-- Writing that fails changes nothing. -/
theorem write_eq_error {content : Content} {error : FileError} (h : tree.write path content = (grown, some error)) :
    grown = tree := by
  unfold write at h
  simp only at h
  split at h
  · cases h
  · cases h
    rfl

end FileTree
end TaggedHeader
