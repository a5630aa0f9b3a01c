import TaggedHeader.Proofs.Computation
import TaggedHeader.Proofs.FileTree.Entries

/-!
# Resolving paths

In a tree without links a path leads to a location step by step. `FileTree.Leads` follows steps that all end at
directories, and `FileTree.Names` is about a path whose last step is the name of something in a directory. Both
hold on in every tree in which directories stay directories.
-/

namespace TaggedHeader

open Text

namespace FileTree

variable {tree grown : FileTree} {location : Location} {entry : FileEntry} {name : FileName} {path : Path}

section Walk

variable {keepLast : Bool} {links : Nat} {here : Location} {steps : List Path.Component}

@[simp] theorem walk_nil : tree.walk keepLast links here [] = .ok here := by
  cases links <;> rfl

@[simp] theorem walk_root : tree.walk keepLast links here (.root :: steps) = tree.walk keepLast links [] steps := by
  cases links <;> rfl

@[simp] theorem walk_current :
    tree.walk keepLast links here (.current :: steps) = tree.walk keepLast links here steps := by
  cases links <;> rfl

@[simp] theorem walk_parent :
    tree.walk keepLast links here (.parent :: steps) = tree.walk keepLast links here.dropLast steps := by
  cases links <;> rfl

/-- A walk goes on in a directory. -/
theorem walk_directory (h : tree.entry? (here ++ [name]) = some .directory) :
    tree.walk keepLast links here (.normal name :: steps) = tree.walk keepLast links (here ++ [name]) steps := by
  cases links <;> simp [walk, walkWith, h]

/-- A walk without links ends at what is no directory. -/
theorem walk_name_of_ne_directory (hlinks : ∀ target, tree.entry? (here ++ [name]) ≠ some (.link target))
    (hentry : tree.entry? (here ++ [name]) ≠ some .directory) :
    tree.walk keepLast links here (.normal name :: steps) = if steps = [] then .ok (here ++ [name])
      else .error (if tree.entry? (here ++ [name]) = none then .notFound else .notDirectory) := by
  cases hfound : tree.entry? (here ++ [name]) with
  | none => cases links <;> simp [walk, walkWith, hfound]
  | some entry =>
    cases entry with
    | directory => exact absurd hfound hentry
    | link target => exact absurd hfound (hlinks target)
    | file content => cases links <;> simp [walk, walkWith, hfound]

end Walk

/-- Steps that lead from a location to another, each to a directory. -/
inductive Leads (tree : FileTree) : (here : Location) → List Path.Component → Location → Prop
  | nil (here : Location) : Leads tree here [] here
  | root {here location : Location} {steps : List Path.Component} (h : Leads tree [] steps location) :
    Leads tree here (.root :: steps) location
  | current {here location : Location} {steps : List Path.Component} (h : Leads tree here steps location) :
    Leads tree here (.current :: steps) location
  | parent {here location : Location} {steps : List Path.Component} (h : Leads tree here.dropLast steps location) :
    Leads tree here (.parent :: steps) location
  | normal {here location : Location} {name : FileName} {steps : List Path.Component}
    (hdirectory : tree.entry? (here ++ [name]) = some .directory) (h : Leads tree (here ++ [name]) steps location) :
    Leads tree here (.normal name :: steps) location

namespace Leads

variable {here : Location} {steps more : List Path.Component} {keepLast : Bool}

/-- A walk follows the steps. -/
theorem walk (h : tree.Leads here steps location) (links : Nat) (more : List Path.Component) :
    tree.walk keepLast links here (steps ++ more) = tree.walk keepLast links location more := by
  induction h with
  | nil here => rfl
  | root h ih => rw [List.cons_append, walk_root, ih]
  | current h ih => rw [List.cons_append, walk_current, ih]
  | parent h ih => rw [List.cons_append, walk_parent, ih]
  | normal hdirectory h ih => rw [List.cons_append, walk_directory hdirectory, ih]

/-- Steps lead to one location. -/
theorem unique {other : Location} (h : tree.Leads here steps location) (h' : tree.Leads here steps other) :
    location = other := by
  have hwalk : tree.walk false 0 location [] = tree.walk false 0 other [] :=
    (h.walk 0 []).symm.trans (h'.walk 0 [])
  rw [walk_nil, walk_nil] at hwalk
  exact Except.ok.inj hwalk

/-- Steps lead from a directory to a directory. -/
theorem isDirectory (h : tree.Leads here steps location) (hwell : tree.WellFormed)
    (hhere : tree.entry? here = some .directory) : tree.entry? location = some .directory := by
  induction h with
  | nil here => exact hhere
  | root h ih => exact ih rfl
  | current h ih => exact ih hhere
  | parent h ih => exact ih (hwell.dropLast hhere)
  | normal hdirectory h ih => exact ih hdirectory

/-- Steps go on from where others lead. -/
theorem append {between : Location} (h : tree.Leads here steps between) (h' : tree.Leads between more location) :
    tree.Leads here (steps ++ more) location := by
  induction h with
  | nil here => exact h'
  | root h ih => exact .root (ih h')
  | current h ih => exact .current (ih h')
  | parent h ih => exact .parent (ih h')
  | normal hdirectory h ih => exact .normal hdirectory (ih h')

/-- Steps lead somewhere by way of where the first of them lead. -/
theorem exists_between (h : tree.Leads here (steps ++ more) location) :
    ∃ between, tree.Leads here steps between ∧ tree.Leads between more location := by
  induction steps generalizing here with
  | nil => exact ⟨here, .nil here, h⟩
  | cons step steps ih =>
    cases h with
    | root h =>
      obtain ⟨between, hleads, hrest⟩ := ih h
      exact ⟨between, .root hleads, hrest⟩
    | current h =>
      obtain ⟨between, hleads, hrest⟩ := ih h
      exact ⟨between, .current hleads, hrest⟩
    | parent h =>
      obtain ⟨between, hleads, hrest⟩ := ih h
      exact ⟨between, .parent hleads, hrest⟩
    | normal hdirectory h =>
      obtain ⟨between, hleads, hrest⟩ := ih h
      exact ⟨between, .normal hdirectory hleads, hrest⟩

/-- Names lead to what is below under these names. -/
theorem eq_append_of_names {names : List FileName} (h : tree.Leads here (names.map .normal) location) :
    location = here ++ names := by
  induction names generalizing here with
  | nil =>
    cases h
    exact (List.append_nil _).symm
  | cons name names ih =>
    cases h with
    | normal hdirectory h => rw [ih h, List.append_assoc, List.singleton_append]

/-- Names lead to a directory that stands below under these names. -/
theorem of_names (hwell : tree.WellFormed) {names : List FileName}
    (h : tree.entry? (here ++ names) = some .directory) : tree.Leads here (names.map .normal) (here ++ names) := by
  induction names generalizing here with
  | nil =>
    rw [List.append_nil]
    exact .nil here
  | cons name names ih =>
    rw [← List.singleton_append, ← List.append_assoc] at h ⊢
    refine .normal ?_ (ih h)
    by_cases hlast : names = []
    · rwa [hlast, List.append_nil] at h
    · exact hwell.directory_above hlast h

/-- Where directories stay directories, steps lead to where they did. -/
theorem mono {grown : FileTree} (h : tree.Leads here steps location)
    (hgrown : ∀ location, tree.entry? location = some .directory → grown.entry? location = some .directory) :
    grown.Leads here steps location := by
  induction h with
  | nil here => exact .nil here
  | root h ih => exact .root ih
  | current h ih => exact .current ih
  | parent h ih => exact .parent ih
  | normal hdirectory h ih => exact .normal (hgrown _ hdirectory) ih

/-- A walk without links that goes on behind some steps has been led by them. -/
theorem exists_of_walk (hlinks : tree.LinkFree) {links : Nat} (hmore : more ≠ [])
    (h : tree.walk keepLast links here (steps ++ more) = .ok location) :
    ∃ between, tree.Leads here steps between ∧ tree.walk keepLast links between more = .ok location := by
  induction steps generalizing here with
  | nil => exact ⟨here, .nil here, h⟩
  | cons step steps ih =>
    rw [List.cons_append] at h
    cases step with
    | root =>
      obtain ⟨between, hleads, hrest⟩ := ih (walk_root.symm.trans h)
      exact ⟨between, .root hleads, hrest⟩
    | current =>
      obtain ⟨between, hleads, hrest⟩ := ih (walk_current.symm.trans h)
      exact ⟨between, .current hleads, hrest⟩
    | parent =>
      obtain ⟨between, hleads, hrest⟩ := ih (walk_parent.symm.trans h)
      exact ⟨between, .parent hleads, hrest⟩
    | normal name =>
      by_cases hentry : tree.entry? (here ++ [name]) = some .directory
      · obtain ⟨between, hleads, hrest⟩ := ih ((walk_directory hentry).symm.trans h)
        exact ⟨between, .normal hentry hleads, hrest⟩
      · have hnotLast : steps ++ more ≠ [] := List.append_ne_nil_of_right_ne_nil steps hmore
        rw [walk_name_of_ne_directory (fun target => hlinks _ target) hentry, if_neg hnotLast] at h
        cases h

end Leads

/-- What a path leads to stands where the path leads. -/
theorem lookup_eq_ok_iff {path : Path} : tree.lookup path = .ok (location, entry) ↔
    tree.locate path = .ok location ∧ tree.entry? location = some entry := by
  rw [lookup, bind_eq_ok_iff]
  constructor
  · rintro ⟨found, hlocate, hentry⟩
    split at hentry
    · rename_i other hother
      cases hentry
      exact ⟨hlocate, hother⟩
    · cases hentry
  · rintro ⟨hlocate, hentry⟩
    refine ⟨location, hlocate, ?_⟩
    rw [hentry]
    rfl

theorem read_eq_ok_iff {content : Content} :
    tree.read path = .ok content ↔ ∃ location, tree.lookup path = .ok (location, .file content) := by
  constructor
  · intro h
    obtain ⟨⟨location, entry⟩, hlookup, hcontent⟩ := bind_eq_ok_iff.mp h
    cases entry with
    | directory => cases hcontent
    | link target => cases hcontent
    | file content =>
      cases hcontent
      exact ⟨location, hlookup⟩
  · rintro ⟨location, hlookup⟩
    rw [read, hlookup]
    rfl

/-- The text of a file is read where the path leads. -/
theorem readText_eq_ok_iff {text : Text} : tree.readText path = .ok text ↔
    ∃ location, tree.locate path = .ok location ∧ tree.entry? location = some (.file (.text text)) := by
  simp only [← lookup_eq_ok_iff, ← read_eq_ok_iff]
  constructor
  · intro h
    obtain ⟨content, hread, htext⟩ := bind_eq_ok_iff.mp h
    cases content with
    | binary bytes => cases htext
    | text other =>
      cases htext
      exact hread
  · intro hread
    rw [readText, hread]
    rfl

/-- Whether a path leads to a location by the name of something in a directory. -/
def Names (tree : FileTree) (path : Path) (location : Location) : Prop :=
  ∃ front directory name, path.components = front ++ [.normal name] ∧ path.asksForDirectory = false ∧
    tree.Leads tree.workingDirectory front directory ∧ location = directory ++ [name]

namespace IsPlain

variable {steps : List Path.Component}

/-- Steps from the working directory lead to a directory. -/
theorem isDirectory (h : tree.IsPlain) (hleads : tree.Leads tree.workingDirectory steps location) :
    tree.entry? location = some .directory :=
  hleads.isDirectory h.wellFormed h.wellFormed.working

/-- A walk of one step by name goes there. -/
theorem walk_name (h : tree.IsPlain) (keepLast : Bool) (links : Nat) (here : Location) (name : FileName) :
    tree.walk keepLast links here [.normal name] = .ok (here ++ [name]) := by
  by_cases hentry : tree.entry? (here ++ [name]) = some .directory
  · rw [walk_directory hentry, walk_nil]
  · rw [walk_name_of_ne_directory (fun target => h.linkFree _ target) hentry, if_pos rfl]

/-- A path whose last step is a name leads to what the name stands for. -/
theorem locate_names (h : tree.IsPlain) (hnames : tree.Names path location) : tree.locate path = .ok location := by
  obtain ⟨front, directory, name, hcomponents, hasks, hleads, rfl⟩ := hnames
  rw [locate, if_neg (Path.text_ne_nil_of_asksForDirectory hasks), Path.requestedSteps, hasks,
    if_neg Bool.false_ne_true, hcomponents, hleads.walk, h.walk_name]

/-- A path leads to a directory by all its steps, or by all but the last to what the last one names. -/
theorem leads_or_names (h : tree.IsPlain) (hlocate : tree.locate path = .ok location) :
    tree.Leads tree.workingDirectory path.components location ∨ tree.Names path location := by
  unfold locate at hlocate
  split at hlocate
  · cases hlocate
  cases hasks : path.asksForDirectory with
  | true =>
    rw [Path.requestedSteps, hasks, if_pos rfl] at hlocate
    obtain ⟨directory, hleads, hlast⟩ := Leads.exists_of_walk h.linkFree (List.cons_ne_nil _ _) hlocate
    rw [walk_current, walk_nil] at hlast
    exact .inl (Except.ok.inj hlast ▸ hleads)
  | false =>
    rw [Path.requestedSteps, hasks, if_neg Bool.false_ne_true] at hlocate
    rcases List.eq_nil_or_concat path.components with hnil | ⟨front, last, hlast⟩
    · rw [hnil, walk_nil] at hlocate
      rw [hnil]
      exact .inl (Except.ok.inj hlocate ▸ .nil _)
    rw [List.concat_eq_append] at hlast
    rw [hlast] at hlocate
    obtain ⟨directory, hleads, hwalk⟩ := Leads.exists_of_walk h.linkFree (List.cons_ne_nil _ _) hlocate
    cases last with
    | root =>
      rw [walk_root, walk_nil] at hwalk
      exact .inl (hlast ▸ hleads.append (Except.ok.inj hwalk ▸ .root (.nil _)))
    | current =>
      rw [walk_current, walk_nil] at hwalk
      exact .inl (hlast ▸ hleads.append (Except.ok.inj hwalk ▸ .current (.nil _)))
    | parent =>
      rw [walk_parent, walk_nil] at hwalk
      exact .inl (hlast ▸ hleads.append (Except.ok.inj hwalk ▸ .parent (.nil _)))
    | normal name =>
      rw [h.walk_name] at hwalk
      exact .inr ⟨front, directory, name, hlast, hasks, hleads, (Except.ok.inj hwalk).symm⟩

/-- The last step of a path that leads to a file is a name. -/
theorem names_of_file (h : tree.IsPlain) {content : Content} (hlocate : tree.locate path = .ok location)
    (hfile : tree.entry? location = some (.file content)) : tree.Names path location := by
  refine (h.leads_or_names hlocate).resolve_left fun hleads => ?_
  rw [h.isDirectory hleads] at hfile
  cases hfile

end IsPlain

theorem isDirectory_iff : tree.isDirectory path = true ↔ ∃ location, tree.lookup path = .ok (location, .directory) := by
  unfold FileTree.isDirectory
  split
  · rename_i location hfound
    exact ⟨fun _ => ⟨location, hfound⟩, fun _ => rfl⟩
  · rename_i hnone
    exact ⟨fun h => Bool.noConfusion h, fun ⟨location, hfound⟩ => absurd hfound (hnone location)⟩

theorem isFile_iff : tree.isFile path = true ↔ ∃ location content, tree.lookup path = .ok (location, .file content) := by
  unfold FileTree.isFile
  split
  · rename_i location content hfound
    exact ⟨fun _ => ⟨location, content, hfound⟩, fun _ => rfl⟩
  · rename_i hnone
    exact ⟨fun h => Bool.noConfusion h, fun ⟨location, content, hfound⟩ => absurd hfound (hnone location content)⟩

/-- A path that leads to something is not empty. -/
theorem text_ne_nil_of_locate (h : tree.locate path = .ok location) : path.text ≠ [] := by
  intro htext
  rw [locate, if_pos htext] at h
  cases h

/-- All steps of a path that leads to a directory lead there. -/
theorem IsPlain.leads_of_lookup (h : tree.IsPlain) (hlookup : tree.lookup path = .ok (location, .directory)) :
    tree.Leads tree.workingDirectory path.components location := by
  obtain ⟨hlocate, hdirectory⟩ := lookup_eq_ok_iff.mp hlookup
  rcases h.leads_or_names hlocate with hleads | ⟨front, directory, name, hcomponents, -, hleads, rfl⟩
  · exact hleads
  · rw [hcomponents]
    exact hleads.append (.normal hdirectory (.nil _))

/-- A path below a directory leads to a file where the file stands under its names. -/
theorem IsPlain.lookup_below_iff (h : tree.IsPlain) {base : Path} {names : List FileName}
    (hbelow : path.IsBelow base names) {content : Content} :
    tree.lookup path = .ok (location, .file content) ↔
      ∃ directory, tree.Leads tree.workingDirectory base.components directory ∧ location = directory ++ names ∧
        tree.entry? location = some (.file content) := by
  obtain ⟨above, last, hnames⟩ := (List.eq_nil_or_concat names).resolve_left hbelow.nonempty
  rw [List.concat_eq_append] at hnames
  have hcomponents : path.components = (base.components ++ above.map .normal) ++ [.normal last] := by
    rw [hbelow.components, hnames, List.map_append, List.append_assoc]
    rfl
  rw [lookup_eq_ok_iff]
  constructor
  · rintro ⟨hlocate, hfile⟩
    obtain ⟨front, parent, name, hfront, -, hleads, rfl⟩ := h.names_of_file hlocate hfile
    obtain ⟨rfl, hname⟩ := List.append_inj' (hcomponents.symm.trans hfront) rfl
    cases hname
    obtain ⟨directory, hbase, habove⟩ := hleads.exists_between
    refine ⟨directory, hbase, ?_, hfile⟩
    rw [habove.eq_append_of_names, hnames, List.append_assoc]
  · rintro ⟨directory, hbase, rfl, hfile⟩
    rw [hnames, ← List.append_assoc] at hfile ⊢
    have habove := Leads.of_names h.wellFormed (h.wellFormed.above _ _ _ hfile)
    exact ⟨h.locate_names ⟨_, _, last, hcomponents, hbelow.notAsks, hbase.append habove, rfl⟩, hfile⟩

/-- What is joined to a path that leads to a directory is in this directory. -/
theorem IsPlain.locate_join (h : tree.IsPlain) (hlookup : tree.lookup path = .ok (location, .directory))
    (hname : IsFileName name) : tree.locate (path.join ⟨name⟩) = .ok (location ++ [name]) :=
  h.locate_names ⟨path.components, location, name, path.components_join hname,
    path.asksForDirectory_join hname.noSlash hname.notIdle, h.leads_of_lookup hlookup, rfl⟩

end FileTree
end TaggedHeader
