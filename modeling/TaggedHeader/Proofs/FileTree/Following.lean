import TaggedHeader.Proofs.FileTree.Resolving

/-!
# Following links

A path may lead over links, and a link may lead nowhere until something is made there. `FileTree.Follows` tells the
steps of a walk that succeeds, with the links that it follows. Such a walk ends at a directory, or at a name under
which a file can be written. What stands in a directory is found by its name on every way that leads to the directory,
whatever links are followed on this way, unless it is a link itself.
-/

namespace TaggedHeader

open Text

namespace FileTree

variable {tree : FileTree} {location here between : Location} {name : FileName} {path other : Path}
  {links : Nat} {steps more : List Path.Component}

/-- Whether a file can be written at a location: what stands there, if anything, is a file. -/
def TakesFile (tree : FileTree) (location : Location) : Prop :=
  ∀ entry, tree.entry? location = some entry → ∃ content, entry = .file content

/-- Steps that lead from a location to another one over at most so many links. -/
inductive Follows (tree : FileTree) : (links : Nat) → (here : Location) → List Path.Component → Location → Prop
  | nil {links : Nat} {here : Location} : Follows tree links here [] here
  | root {links : Nat} {here location : Location} {steps : List Path.Component}
    (h : Follows tree links [] steps location) : Follows tree links here (.root :: steps) location
  | current {links : Nat} {here location : Location} {steps : List Path.Component}
    (h : Follows tree links here steps location) : Follows tree links here (.current :: steps) location
  | parent {links : Nat} {here location : Location} {steps : List Path.Component}
    (h : Follows tree links here.dropLast steps location) : Follows tree links here (.parent :: steps) location
  | directory {links : Nat} {here location : Location} {name : FileName} {steps : List Path.Component}
    (hentry : tree.entry? (here ++ [name]) = some .directory) (h : Follows tree links (here ++ [name]) steps location) :
    Follows tree links here (.normal name :: steps) location
  | last {links : Nat} {here : Location} {name : FileName} (htakes : tree.TakesFile (here ++ [name])) :
    Follows tree links here [.normal name] (here ++ [name])
  | link {links : Nat} {here location : Location} {name : FileName} {target : Path} {steps : List Path.Component}
    (hentry : tree.entry? (here ++ [name]) = some (.link target))
    (h : Follows tree links here (target.requestedSteps ++ steps) location) :
    Follows tree (links + 1) here (.normal name :: steps) location

/-- A walk that follows some link takes a step by name to a link. -/
theorem walk_link {target : Path} (hentry : tree.entry? (here ++ [name]) = some (.link target)) :
    tree.walk false (links + 1) here (.normal name :: steps) =
      tree.walk false links here (target.requestedSteps ++ steps) := by
  simp [walk, walkWith, hentry]

namespace Follows

/-- A walk takes the steps. -/
theorem walk (h : tree.Follows links here steps location) : tree.walk false links here steps = .ok location := by
  induction h with
  | nil => exact walk_nil
  | root h ih => rw [walk_root, ih]
  | current h ih => rw [walk_current, ih]
  | parent h ih => rw [walk_parent, ih]
  | directory hentry h ih => rw [walk_directory hentry, ih]
  | @last links here name htakes =>
    rw [walk_name_of_ne_directory, if_pos rfl]
    · rintro target hlink
      obtain ⟨content, hfile⟩ := htakes _ hlink
      cases hfile
    · intro hdirectory
      obtain ⟨content, hfile⟩ := htakes _ hdirectory
      cases hfile
  | link hentry h ih => rw [walk_link hentry, ih]

/-- A walk that succeeds takes such steps, given that this holds of the walks behind the links. -/
theorem of_walkWith {follow : Location → List Path.Component → Except FileError Location}
    (hfollow : ∀ here steps, follow here steps = .ok location → ∃ left, links = left + 1 ∧
      tree.Follows left here steps location)
    (h : tree.walkWith false follow here steps = .ok location) : tree.Follows links here steps location := by
  induction steps generalizing here with
  | nil =>
    cases h
    exact .nil
  | cons step steps ih =>
    cases step with
    | root => exact .root (ih h)
    | current => exact .current (ih h)
    | parent => exact .parent (ih h)
    | normal name =>
      rw [walkWith] at h
      cases hentry : tree.entry? (here ++ [name]) with
      | none =>
        simp only [hentry] at h
        split at h
        · rename_i hlast
          cases h
          subst hlast
          exact .last fun entry hsome => by simp [hentry] at hsome
        · cases h
      | some entry =>
        cases entry with
        | directory =>
          simp only [hentry] at h
          exact .directory hentry (ih h)
        | file content =>
          simp only [hentry] at h
          split at h
          · rename_i hlast
            cases h
            subst hlast
            exact .last fun entry hsome => ⟨content, Option.some.inj (hsome.symm.trans hentry)⟩
          · cases h
        | link target =>
          simp only [hentry, Bool.and_false, Bool.false_eq_true, if_false] at h
          obtain ⟨left, rfl, hleft⟩ := hfollow _ _ h
          exact .link hentry hleft

end Follows

/-- The steps of a walk that succeeds. -/
theorem walk_eq_ok_iff : tree.walk false links here steps = .ok location ↔ tree.Follows links here steps location := by
  refine ⟨fun h => ?_, Follows.walk⟩
  induction links generalizing here steps with
  | zero => exact .of_walkWith (fun _ _ hnone => by cases hnone) h
  | succ links ih => exact .of_walkWith (fun _ _ hrest => ⟨links, rfl, ih hrest⟩) h

theorem locate_eq_ok_iff : tree.locate path = .ok location ↔
    path.text ≠ [] ∧ tree.Follows maxLinks tree.workingDirectory path.requestedSteps location := by
  rw [locate, ← walk_eq_ok_iff]
  by_cases hempty : path.text = []
  · simp [hempty]
  · simp [hempty]

/-- The names among what a path asks for are names of files. -/
theorem isFileName_of_mem_requestedSteps (h : .normal name ∈ path.requestedSteps) : IsFileName name := by
  rw [Path.requestedSteps] at h
  split at h
  · exact path.isFileName_of_mem_components ((List.mem_append.mp h).resolve_right (by simp))
  · exact path.isFileName_of_mem_components h

namespace Follows

/-- What goes on from where steps to a directory lead, and needs no links there, goes on behind these steps. -/
theorem append (h : tree.Follows links here (steps ++ [.current]) between)
    (hmore : ∀ links, tree.Follows links between more location) : tree.Follows links here (steps ++ more) location := by
  generalize hsteps : steps ++ [.current] = asked at h
  induction h generalizing steps with
  | nil => exact absurd hsteps (List.concat_ne_nil _ _)
  | root h ih =>
    obtain ⟨-, hlast⟩ | ⟨rest, rfl, hrest⟩ := List.append_eq_cons_iff.mp hsteps
    · cases hlast
    · exact .root (ih hmore hrest.symm)
  | current h ih =>
    obtain ⟨rfl, hlast⟩ | ⟨rest, rfl, hrest⟩ := List.append_eq_cons_iff.mp hsteps
    · cases hlast
      cases h
      exact hmore _
    · exact .current (ih hmore hrest.symm)
  | parent h ih =>
    obtain ⟨-, hlast⟩ | ⟨rest, rfl, hrest⟩ := List.append_eq_cons_iff.mp hsteps
    · cases hlast
    · exact .parent (ih hmore hrest.symm)
  | directory hentry h ih =>
    obtain ⟨-, hlast⟩ | ⟨rest, rfl, hrest⟩ := List.append_eq_cons_iff.mp hsteps
    · cases hlast
    · exact .directory hentry (ih hmore hrest.symm)
  | last htakes =>
    have hlast := congrArg List.getLast? hsteps
    rw [List.getLast?_concat] at hlast
    cases hlast
  | @link links here _ name target _ hentry h ih =>
    obtain ⟨-, hlast⟩ | ⟨rest, rfl, hrest⟩ := List.append_eq_cons_iff.mp hsteps
    · cases hlast
    · have hbehind := @ih (target.requestedSteps ++ rest) hmore (by rw [hrest, List.append_assoc])
      rw [List.append_assoc] at hbehind
      exact .link hentry hbehind

/-- Steps to a directory lead there as well if one more asks for a directory. -/
theorem ask (h : tree.Follows links here steps location) (hdirectory : tree.entry? location = some .directory) :
    tree.Follows links here (steps ++ [.current]) location := by
  induction h with
  | nil => exact .current .nil
  | root h ih => exact .root (ih hdirectory)
  | current h ih => exact .current (ih hdirectory)
  | parent h ih => exact .parent (ih hdirectory)
  | directory hentry h ih => exact .directory hentry (ih hdirectory)
  | last htakes => exact .directory hdirectory (.current .nil)
  | link hentry h ih =>
    have hbehind := ih hdirectory
    rw [List.append_assoc] at hbehind
    exact .link hentry hbehind

/-- Steps end at a directory, or behind a name at a place in a directory where a file can be written. -/
theorem ends (h : tree.Follows links here steps location) (hwell : tree.WellFormed)
    (hhere : tree.entry? here = some .directory) (hsteps : ∀ name, .normal name ∈ steps → IsFileName name) :
    tree.entry? location = some .directory ∨ (∃ name, steps.getLast? = some (.normal name)) ∧
      ∃ parent name, location = parent ++ [name] ∧ tree.entry? parent = some .directory ∧ IsFileName name ∧
        tree.TakesFile location := by
  have hlater : ∀ {step : Path.Component} {steps : List Path.Component},
      (∃ name, steps.getLast? = some (.normal name)) → ∃ name, (step :: steps).getLast? = some (.normal name) := by
    rintro step steps ⟨name, hname⟩
    exact ⟨name, (List.getLast?_cons_of_ne_nil (by rintro rfl; cases hname)).trans hname⟩
  have hothers : ∀ {step : Path.Component} {steps : List Path.Component},
      (∀ name, .normal name ∈ step :: steps → IsFileName name) → ∀ name, .normal name ∈ steps → IsFileName name :=
    fun hsteps name hname => hsteps name (List.mem_cons_of_mem _ hname)
  induction h with
  | nil => exact .inl hhere
  | root h ih => exact (ih rfl (hothers hsteps)).imp_right fun hend => ⟨hlater hend.1, hend.2⟩
  | current h ih => exact (ih hhere (hothers hsteps)).imp_right fun hend => ⟨hlater hend.1, hend.2⟩
  | parent h ih => exact (ih (hwell.dropLast hhere) (hothers hsteps)).imp_right fun hend => ⟨hlater hend.1, hend.2⟩
  | directory hentry h ih => exact (ih hentry (hothers hsteps)).imp_right fun hend => ⟨hlater hend.1, hend.2⟩
  | @last links here name htakes =>
    exact .inr ⟨⟨name, rfl⟩, here, name, rfl, hhere, hsteps name (by simp), htakes⟩
  | @link links here location name target steps hentry h ih =>
    refine (ih hhere fun name hname => ?_).imp_right fun hend => ⟨?_, hend.2⟩
    · rcases List.mem_append.mp hname with hname | hname
      · exact isFileName_of_mem_requestedSteps hname
      · exact hothers hsteps name hname
    · by_cases hnone : steps = []
      · exact ⟨name, by rw [hnone]; rfl⟩
      · obtain ⟨last, hlast⟩ := hend.1
        rw [List.getLast?_append_of_ne_nil _ hnone] at hlast
        exact hlater ⟨last, hlast⟩

end Follows

/-! ## Where paths lead -/

/-- A path leads to a directory, or, with a name for its last step, to a place in one where a file can be written. -/
theorem WellFormed.locate_ends (h : tree.WellFormed) (hlocate : tree.locate path = .ok location) :
    tree.entry? location = some .directory ∨
      (path.asksForDirectory = false ∧ ∃ front name, path.components = front ++ [.normal name]) ∧
        ∃ parent name, location = parent ++ [name] ∧ tree.entry? parent = some .directory ∧ IsFileName name ∧
          tree.TakesFile location := by
  obtain ⟨-, hfollows⟩ := locate_eq_ok_iff.mp hlocate
  have hends := hfollows.ends h h.working fun name => isFileName_of_mem_requestedSteps
  refine hends.imp_right fun ⟨⟨name, hlast⟩, hplace⟩ => ⟨?_, hplace⟩
  cases hasks : path.asksForDirectory with
  | true =>
    rw [Path.requestedSteps, if_pos hasks, List.getLast?_concat] at hlast
    cases hlast
  | false =>
    rw [Path.requestedSteps, hasks, if_neg Bool.false_ne_true] at hlast
    obtain ⟨front, hfront⟩ := List.getLast?_eq_some_iff.mp hlast
    exact ⟨rfl, front, name, hfront⟩

/-- The last step of a path that leads to a file is a name. -/
theorem WellFormed.name_of_file (h : tree.WellFormed) {content : Content} (hlocate : tree.locate path = .ok location)
    (hfile : tree.entry? location = some (.file content)) :
    path.asksForDirectory = false ∧ ∃ front name, path.components = front ++ [.normal name] := by
  refine ((h.locate_ends hlocate).resolve_left fun hdirectory => ?_).1
  rw [hfile] at hdirectory
  cases hdirectory

/-- The steps of a path to a directory lead there, whether or not the path asks for a directory. -/
theorem follows_of_lookup (hlookup : tree.lookup path = .ok (location, .directory)) :
    tree.Follows maxLinks tree.workingDirectory (path.components ++ [.current]) location := by
  obtain ⟨hlocate, hdirectory⟩ := lookup_eq_ok_iff.mp hlookup
  obtain ⟨-, hfollows⟩ := locate_eq_ok_iff.mp hlocate
  rw [Path.requestedSteps] at hfollows
  split at hfollows
  · exact hfollows
  · exact hfollows.ask hdirectory

/-- What stands in a directory is found there by its name, unless it is a link. -/
theorem locate_join_of_lookup (hlookup : tree.lookup path = .ok (location, .directory)) (hname : IsFileName name)
    (hplace : tree.entry? (location ++ [name]) = some .directory ∨ tree.TakesFile (location ++ [name])) :
    tree.locate (path.join ⟨name⟩) = .ok (location ++ [name]) := by
  have hasks := path.asksForDirectory_join hname.noSlash hname.notIdle
  rw [locate_eq_ok_iff, Path.requestedSteps, hasks, if_neg Bool.false_ne_true, path.components_join hname]
  refine ⟨Path.text_ne_nil_of_asksForDirectory hasks, (follows_of_lookup hlookup).append fun links => ?_⟩
  rcases hplace with hdirectory | htakes
  · exact .directory hdirectory .nil
  · exact .last htakes

/-- Paths with the same steps lead to the same place, if they ask for no directory. -/
theorem locate_congr (hsame : path.sameAs other = true) (hasks : path.asksForDirectory = false)
    (hasks' : other.asksForDirectory = false) : tree.locate path = tree.locate other := by
  rw [locate, locate, if_neg (Path.text_ne_nil_of_asksForDirectory hasks),
    if_neg (Path.text_ne_nil_of_asksForDirectory hasks'), Path.requestedSteps, Path.requestedSteps, hasks, hasks',
    Path.sameAs_iff.mp hsame]

end FileTree
end TaggedHeader
