import TaggedHeader.Proofs.Discovery
import TaggedHeader.Proofs.FileTree.Following

/-!
# The walk over links

Links to directories may lead back to where a walk comes from, so the paths that it could follow have no end. What
ends it is that a directory entered once is not entered again. `Traverses` is the walk without a bound on its depth,
with the directories that it reads; a walk with the bound of its tree is one of these, since no level is reached
before another directory is entered, and no tree has more directories than entries.

A place is a name in a directory, and what a walk takes has places that the directories read offer, each place once.
So a header is listed once, although many paths lead to it.
-/

namespace TaggedHeader

open Text FileTree

variable {tree : FileTree} {filter : HeaderFilter} {root directory header path : Path} {location : Location}
  {name : FileName} {isRoot : Bool} {depth : Nat}

/-! ## Walks without a bound -/

/-- What is left to do on a walk. -/
inductive Errand where
  /-- Enter a directory, if there is one at the path. -/
  | enter (isRoot : Bool) (path : Path)
  /-- Go through names in the directory at a location, which a path leads to. -/
  | visit (isRoot : Bool) (directory : Path) (location : Location) (names : List FileName)

/-- Whether an errand ends, which directories are read on it one after another, and how the walk stands then. -/
inductive Traverses (tree : FileTree) (filter : HeaderFilter) (root : Path) :
    Errand → Walk → (reads : List Location) → (after : Walk) → Prop
  | nowhere {isRoot : Bool} {path : Path} {walk : Walk} (hnone : tree.isDirectory path = false) :
    Traverses tree filter root (.enter isRoot path) walk [] walk
  | again {isRoot : Bool} {path : Path} {location : Location} {walk : Walk}
    (hlookup : tree.lookup path = .ok (location, .directory)) (hvisited : location ∈ walk.visited) :
    Traverses tree filter root (.enter isRoot path) walk [] walk
  | read {isRoot : Bool} {path : Path} {location : Location} {walk after : Walk} {reads : List Location}
    (hlookup : tree.lookup path = .ok (location, .directory)) (hfresh : location ∉ walk.visited)
    (h : Traverses tree filter root (.visit isRoot path location (tree.namesIn location))
      { walk with visited := location :: walk.visited } reads after) :
    Traverses tree filter root (.enter isRoot path) walk (location :: reads) after
  | done {isRoot : Bool} {directory : Path} {location : Location} {walk : Walk} :
    Traverses tree filter root (.visit isRoot directory location []) walk [] walk
  | skip {isRoot : Bool} {directory : Path} {location : Location} {name : FileName} {names : List FileName}
    {walk after : Walk} {reads : List Location}
    (hskip : treatment tree filter root isRoot (directory.join ⟨name⟩) name = .skip)
    (h : Traverses tree filter root (.visit isRoot directory location names) walk reads after) :
    Traverses tree filter root (.visit isRoot directory location (name :: names)) walk reads after
  | take {isRoot : Bool} {directory : Path} {location : Location} {name : FileName} {names : List FileName}
    {walk after : Walk} {reads : List Location}
    (htake : treatment tree filter root isRoot (directory.join ⟨name⟩) name = .take)
    (h : Traverses tree filter root (.visit isRoot directory location names)
      { walk with headers := directory.join ⟨name⟩ :: walk.headers } reads after) :
    Traverses tree filter root (.visit isRoot directory location (name :: names)) walk reads after
  | deeper {isRoot : Bool} {directory : Path} {location : Location} {name : FileName} {names : List FileName}
    {walk between after : Walk} {reads more : List Location}
    (henter : treatment tree filter root isRoot (directory.join ⟨name⟩) name = .enter)
    (hinside : Traverses tree filter root (.enter false (directory.join ⟨name⟩)) walk reads between)
    (h : Traverses tree filter root (.visit isRoot directory location names) between more after) :
    Traverses tree filter root (.visit isRoot directory location (name :: names)) walk (reads ++ more) after

namespace Traverses

variable {errand : Errand} {walk after : Walk} {reads : List Location}

/-- What is entered on a walk is what is read. -/
theorem visited (h : Traverses tree filter root errand walk reads after) :
    after.visited = reads.reverse ++ walk.visited := by
  induction h with
  | nowhere hnone => rfl
  | again hlookup hvisited => rfl
  | read hlookup hfresh h ih => rw [ih, List.reverse_cons, List.append_assoc, List.singleton_append]
  | done => rfl
  | skip hskip h ih => exact ih
  | take htake h ih => exact ih
  | deeper henter hinside h ihinside ih => rw [ih, ihinside, List.reverse_append, List.append_assoc]

/-- What has been entered stays entered. -/
theorem length_visited_le (h : Traverses tree filter root errand walk reads after) :
    walk.visited.length ≤ after.visited.length := by
  rw [h.visited, List.length_append]
  exact Nat.le_add_left _ _

/-- No directory is entered twice. -/
theorem nodup_visited (h : Traverses tree filter root errand walk reads after) (hnodup : walk.visited.Nodup) :
    after.visited.Nodup := by
  induction h with
  | nowhere hnone => exact hnodup
  | again hlookup hvisited => exact hnodup
  | read hlookup hfresh h ih => exact ih (List.nodup_cons.mpr ⟨hfresh, hnodup⟩)
  | done => exact hnodup
  | skip hskip h ih => exact ih hnodup
  | take htake h ih => exact ih hnodup
  | deeper henter hinside h ihinside ih => exact ih (ihinside hnodup)

/-- Directories are read, and nothing else. -/
theorem isDirectory (h : Traverses tree filter root errand walk reads after) :
    ∀ location ∈ reads, tree.entry? location = some .directory := by
  induction h with
  | nowhere hnone => exact List.forall_mem_nil _
  | again hlookup hvisited => exact List.forall_mem_nil _
  | read hlookup hfresh h ih => exact List.forall_mem_cons.mpr ⟨(lookup_eq_ok_iff.mp hlookup).2, ih⟩
  | done => exact List.forall_mem_nil _
  | skip hskip h ih => exact ih
  | take htake h ih => exact ih
  | deeper henter hinside h ihinside ih => exact List.forall_mem_append.mpr ⟨ihinside, ih⟩

/-- An errand goes one way. -/
theorem unique {last : Walk} {taken : List Location} (h : Traverses tree filter root errand walk reads after)
    (h' : Traverses tree filter root errand walk taken last) : taken = reads ∧ last = after := by
  induction h generalizing taken last with
  | nowhere hnone =>
    cases h' with
    | nowhere => exact ⟨rfl, rfl⟩
    | again hlookup => simp [isDirectory_iff.mpr ⟨_, hlookup⟩] at hnone
    | read hlookup => simp [isDirectory_iff.mpr ⟨_, hlookup⟩] at hnone
  | again hlookup hvisited =>
    cases h' with
    | nowhere hnone => simp [isDirectory_iff.mpr ⟨_, hlookup⟩] at hnone
    | again => exact ⟨rfl, rfl⟩
    | read hlookup' hfresh =>
      cases hlookup.symm.trans hlookup'
      exact absurd hvisited hfresh
  | read hlookup hfresh h ih =>
    cases h' with
    | nowhere hnone => simp [isDirectory_iff.mpr ⟨_, hlookup⟩] at hnone
    | again hlookup' hvisited =>
      cases hlookup.symm.trans hlookup'
      exact absurd hvisited hfresh
    | read hlookup' hfresh' h' =>
      cases hlookup.symm.trans hlookup'
      obtain ⟨rfl, rfl⟩ := ih h'
      exact ⟨rfl, rfl⟩
  | done =>
    cases h'
    exact ⟨rfl, rfl⟩
  | skip hskip h ih =>
    cases h' with
    | skip hskip' h' => exact ih h'
    | take htake => cases hskip.symm.trans htake
    | deeper henter => cases hskip.symm.trans henter
  | take htake h ih =>
    cases h' with
    | skip hskip => cases htake.symm.trans hskip
    | take htake' h' => exact ih h'
    | deeper henter => cases htake.symm.trans henter
  | deeper henter hinside h ihinside ih =>
    cases h' with
    | skip hskip => cases henter.symm.trans hskip
    | take htake => cases henter.symm.trans htake
    | deeper henter' hinside' h' =>
      obtain ⟨rfl, rfl⟩ := ihinside hinside'
      obtain ⟨rfl, rfl⟩ := ih h'
      exact ⟨rfl, rfl⟩

end Traverses

/-! ## The bound of a tree -/

/-- What holds of every walk in a tree: it has entered directories, each of them once. -/
structure Walk.IsIn (tree : FileTree) (walk : Walk) : Prop where
  nodup : walk.visited.Nodup
  isDirectory : ∀ location ∈ walk.visited, tree.entry? location = some .directory

/-- The locations where something can stand. -/
def FileTree.locations (tree : FileTree) : List Location := [] :: tree.entries.map Prod.fst

theorem FileTree.mem_locations_of_eq_some {entry : FileEntry} (h : tree.entry? location = some entry) :
    location ∈ tree.locations := by
  by_cases hroot : location = []
  · exact hroot ▸ List.mem_cons_self
  · exact List.mem_cons_of_mem _ (mem_locations h hroot)

theorem FileTree.length_locations (tree : FileTree) : tree.locations.length = tree.depthBound := by
  rw [locations, List.length_cons, List.length_map, depthBound]

namespace Walk.IsIn

variable {walk after : Walk} {errand : Errand} {reads : List Location}

theorem subperm (h : walk.IsIn tree) : walk.visited.Subperm tree.locations :=
  List.subperm_of_subset h.nodup fun _ hmem => mem_locations_of_eq_some (h.isDirectory _ hmem)

/-- A walk that has entered as many directories as there are locations has been everywhere. -/
theorem mem_visited (h : walk.IsIn tree) (hbound : tree.depthBound ≤ walk.visited.length)
    (hlookup : tree.lookup path = .ok (location, .directory)) : location ∈ walk.visited := by
  rw [← length_locations] at hbound
  have hall := h.subperm.perm_of_length_le hbound
  exact hall.mem_iff.mpr (mem_locations_of_eq_some (lookup_eq_ok_iff.mp hlookup).2)

theorem traverses (h : walk.IsIn tree) (htraverses : Traverses tree filter root errand walk reads after) :
    after.IsIn tree := by
  refine ⟨htraverses.nodup_visited h.nodup, fun location hlocation => ?_⟩
  rw [htraverses.visited, List.mem_append, List.mem_reverse] at hlocation
  exact hlocation.elim (htraverses.isDirectory location) (h.isDirectory location)

/-- Taking a header. -/
theorem take (h : walk.IsIn tree) (header : Path) :
    Walk.IsIn tree { walk with headers := header :: walk.headers } := ⟨h.nodup, h.isDirectory⟩

/-- Entering one more directory. -/
theorem cons (h : walk.IsIn tree) (hlookup : tree.lookup path = .ok (location, .directory))
    (hfresh : location ∉ walk.visited) : Walk.IsIn tree { walk with visited := location :: walk.visited } :=
  ⟨List.nodup_cons.mpr ⟨hfresh, h.nodup⟩,
    List.forall_mem_cons.mpr ⟨(lookup_eq_ok_iff.mp hlookup).2, h.isDirectory⟩⟩

end Walk.IsIn

/-- Going from name to name ends if entering the directories among them does. -/
theorem exists_traverses_foldl {names : List FileName} {walk : Walk} (hwalk : walk.IsIn tree)
    (hbound : tree.depthBound ≤ depth + walk.visited.length)
    (henters : ∀ (path : Path) (walk : Walk), walk.IsIn tree → tree.depthBound ≤ depth + walk.visited.length →
      ∃ reads, Traverses tree filter root (.enter false path) walk reads
        (walkDirectory tree filter root depth false path walk)) :
    ∃ reads, Traverses tree filter root (.visit isRoot directory location names) walk reads
      (names.foldl (visitName tree filter root depth isRoot directory) walk) := by
  induction names generalizing walk with
  | nil => exact ⟨[], .done⟩
  | cons name names ih =>
    rw [List.foldl_cons, visitName]
    cases htreatment : treatment tree filter root isRoot (directory.join ⟨name⟩) name with
    | skip =>
      obtain ⟨reads, hrest⟩ := ih hwalk hbound
      exact ⟨reads, .skip htreatment hrest⟩
    | take =>
      obtain ⟨reads, hrest⟩ := ih (hwalk.take _) hbound
      exact ⟨reads, .take htreatment hrest⟩
    | enter =>
      obtain ⟨reads, hinside⟩ := henters (directory.join ⟨name⟩) walk hwalk hbound
      have hlength := hinside.length_visited_le
      obtain ⟨more, hrest⟩ := ih (hwalk.traverses hinside) (by omega)
      exact ⟨reads ++ more, .deeper htreatment hinside hrest⟩

/-- A walk ends of its own if it may go as deep as there are directories that it has not entered. -/
theorem exists_traverses (filter : HeaderFilter) (root : Path) (isRoot : Bool) (path : Path) {walk : Walk}
    (hwalk : walk.IsIn tree) (hbound : tree.depthBound ≤ depth + walk.visited.length) :
    ∃ reads, Traverses tree filter root (.enter isRoot path) walk reads
      (walkDirectory tree filter root depth isRoot path walk) := by
  induction depth generalizing isRoot path walk with
  | zero =>
    rw [Nat.zero_add] at hbound
    cases hdirectory : tree.isDirectory path with
    | false => exact ⟨[], .nowhere hdirectory⟩
    | true =>
      obtain ⟨location, hlookup⟩ := isDirectory_iff.mp hdirectory
      exact ⟨[], .again hlookup (hwalk.mem_visited hbound hlookup)⟩
  | succ depth ih =>
    cases hdirectory : tree.isDirectory path with
    | false =>
      refine ⟨[], ?_⟩
      rw [walkDirectory_eq_self fun location hlookup => by simp [isDirectory_iff.mpr ⟨_, hlookup⟩] at hdirectory]
      exact .nowhere hdirectory
    | true =>
      obtain ⟨location, hlookup⟩ := isDirectory_iff.mp hdirectory
      by_cases hvisited : location ∈ walk.visited
      · rw [walkDirectory_of_visited hlookup hvisited]
        exact ⟨[], .again hlookup hvisited⟩
      · rw [walkDirectory_eq_foldl hlookup hvisited]
        have hbound' : tree.depthBound ≤ depth + (location :: walk.visited).length := by
          rw [List.length_cons]
          omega
        have hnext := hwalk.cons hlookup hvisited
        obtain ⟨reads, hreads⟩ := exists_traverses_foldl hnext hbound' fun path _ => ih false path
        exact ⟨location :: reads, .read hlookup hvisited hreads⟩

/-- A walk from the root of a project ends, and has read directories, each of them once. -/
theorem exists_traverses_root (tree : FileTree) (filter : HeaderFilter) (root : Path) :
    ∃ reads, Traverses tree filter root (.enter true root) ⟨[], []⟩ reads
        (walkDirectory tree filter root tree.depthBound true root ⟨[], []⟩) ∧
      reads.Nodup ∧ ∀ location ∈ reads, tree.entry? location = some .directory := by
  have hstart : Walk.IsIn tree ⟨[], []⟩ := ⟨List.nodup_nil, List.forall_mem_nil _⟩
  obtain ⟨reads, h⟩ := exists_traverses filter root true root hstart (Nat.le_add_right tree.depthBound 0)
  have hnodup := h.nodup_visited List.nodup_nil
  rw [h.visited, List.append_nil, List.nodup_reverse] at hnodup
  exact ⟨reads, h, hnodup, h.isDirectory⟩

/-! ## Places -/

/-- The directory that a path leads into, links followed, and the name that the path ends in. -/
def FileTree.place? (tree : FileTree) (path : Path) : Option (Location × FileName) :=
  (tree.locateDirectory path.components.dropLast).toOption.bind fun location =>
    path.fileName?.map fun name => (location, name)

/-- The steps of a path to a directory lead there whether the path asks for a directory or not. -/
theorem FileTree.locateDirectory_of_lookup (hlookup : tree.lookup path = .ok (location, .directory)) :
    tree.locateDirectory path.components = .ok location := by
  rw [locateDirectory, (follows_of_lookup hlookup).walk]
  simp only [bind, Except.bind, (lookup_eq_ok_iff.mp hlookup).2]
  rfl

/-- The place of what stands in a directory, by the path of the directory. -/
theorem FileTree.place?_join (hlookup : tree.lookup directory = .ok (location, .directory)) (hname : IsFileName name) :
    tree.place? (directory.join ⟨name⟩) = some (location, name) := by
  rw [place?, Path.fileName?, Path.components_join directory hname, List.dropLast_concat, List.getLast?_concat,
    locateDirectory_of_lookup hlookup]
  rfl

/-- The places in a directory. -/
def FileTree.placesIn (tree : FileTree) (location : Location) : List (Location × FileName) :=
  (tree.namesIn location).map fun name => (location, name)

/-- No place is offered twice where no directory is. -/
theorem FileTree.WellFormed.nodup_places (h : tree.WellFormed) {locations : List Location} (hnodup : locations.Nodup) :
    (locations.flatMap tree.placesIn).Nodup := by
  refine List.nodup_flatMap.mpr ⟨fun location _ =>
    (h.nodup_namesIn location).map fun _ _ hsame => (Prod.mk.inj hsame).2, hnodup.imp ?_⟩
  intro first second hne place hfirst hsecond
  obtain ⟨_, -, rfl⟩ := List.mem_map.mp hfirst
  obtain ⟨_, -, hsame⟩ := List.mem_map.mp hsecond
  exact hne (Prod.mk.inj hsame).1.symm

namespace Errand

/-- The places that an errand starts with. -/
def places : Errand → List (Location × FileName)
  | .enter _ _ => []
  | .visit _ _ location names => names.map fun name => (location, name)

/-- Whether the names of an errand are names in the directory that its path leads to. -/
def IsIn (tree : FileTree) : Errand → Prop
  | .enter _ _ => True
  | .visit _ directory location names =>
    tree.lookup directory = .ok (location, .directory) ∧ ∀ name ∈ names, IsFileName name

end Errand

/-- What is taken on a walk has places among those that the errand starts with and the directories read offer. -/
theorem Traverses.exists_places {errand : Errand} {walk after : Walk} {reads : List Location}
    (h : Traverses tree filter root errand walk reads after) (hwell : tree.WellFormed) (herrand : errand.IsIn tree) :
    ∃ (found : List Path) (places : List (Location × FileName)), after.headers = found ++ walk.headers ∧
      found.map tree.place? = places.map some ∧
      places.Subperm (errand.places ++ reads.flatMap tree.placesIn) := by
  induction h with
  | nowhere hnone => exact ⟨[], [], rfl, rfl, List.nil_subperm⟩
  | again hlookup hvisited => exact ⟨[], [], rfl, rfl, List.nil_subperm⟩
  | read hlookup hfresh h ih =>
    obtain ⟨found, places, hheaders, hplaces, hsubperm⟩ :=
      ih ⟨hlookup, fun name => hwell.isFileName_of_mem_namesIn⟩
    exact ⟨found, places, hheaders, hplaces, hsubperm⟩
  | done => exact ⟨[], [], rfl, rfl, List.nil_subperm⟩
  | skip hskip h ih =>
    obtain ⟨found, places, hheaders, hplaces, hsubperm⟩ := ih ⟨herrand.1, (List.forall_mem_cons.mp herrand.2).2⟩
    exact ⟨found, places, hheaders, hplaces, hsubperm.cons_right _⟩
  | @take isRoot directory location name names walk after reads htake h ih =>
    obtain ⟨hname, hnames⟩ := List.forall_mem_cons.mp herrand.2
    obtain ⟨found, places, hheaders, hplaces, hsubperm⟩ := ih ⟨herrand.1, hnames⟩
    refine ⟨found ++ [directory.join ⟨name⟩], places ++ [(location, name)], ?_, ?_, ?_⟩
    · rw [hheaders, List.append_assoc, List.singleton_append]
    · rw [List.map_append, List.map_append, hplaces, List.map_singleton, List.map_singleton,
        place?_join herrand.1 hname]
    · refine (List.perm_append_singleton (location, name) places).subperm.trans ?_
      exact (List.subperm_cons (location, name)).mpr hsubperm
  | @deeper isRoot directory location name names walk between after reads more henter hinside h ihinside ih =>
    obtain ⟨found, places, hheaders, hplaces, hsubperm⟩ := ihinside trivial
    obtain ⟨others, places', hheaders', hplaces', hsubperm'⟩ :=
      ih ⟨herrand.1, (List.forall_mem_cons.mp herrand.2).2⟩
    refine ⟨others ++ found, places' ++ places, ?_, ?_, ?_⟩
    · rw [hheaders', hheaders, List.append_assoc]
    · rw [List.map_append, List.map_append, hplaces, hplaces']
    · -- The names left come before the directories that the first name leads to, so the offers change sides.
      have hswap : (more.flatMap tree.placesIn ++ reads.flatMap tree.placesIn).Perm
          (reads.flatMap tree.placesIn ++ more.flatMap tree.placesIn) := List.perm_append_comm
      refine ((hsubperm'.append hsubperm).trans ?_).cons_right _
      rw [List.flatMap_append, Errand.places, List.nil_append, List.append_assoc]
      exact (hswap.append_left _).subperm

/-- The headers that discovery lists stand at places, each at another one. -/
theorem FileTree.WellFormed.places_findHeaders (h : tree.WellFormed) (filter : HeaderFilter) (root : Path) :
    ((findHeaders tree filter root).map tree.place?).Nodup ∧
      ∀ header ∈ findHeaders tree filter root, ∃ place, tree.place? header = some place := by
  obtain ⟨reads, htraverses, hnodup, -⟩ := exists_traverses_root tree filter root
  obtain ⟨found, places, hheaders, hplaces, offered, hperm, hsublist⟩ := htraverses.exists_places h trivial
  rw [List.append_nil] at hheaders
  have hoffered : places.Nodup := hperm.nodup_iff.mp (hsublist.nodup (h.nodup_places hnodup))
  have hlisted := List.mergeSort_perm found Path.precedes
  rw [findHeaders, hheaders]
  refine ⟨(hlisted.map tree.place?).nodup_iff.mpr ?_, fun header hheader => ?_⟩
  · rw [hplaces]
    exact hoffered.map fun _ _ => Option.some.inj
  · have hplace : tree.place? header ∈ found.map tree.place? := List.mem_map_of_mem (hlisted.mem_iff.mp hheader)
    rw [hplaces] at hplace
    obtain ⟨place, -, hsame⟩ := List.mem_map.mp hplace
    exact ⟨place, hsame.symm⟩

/-- No two paths that discovery lists have the same steps. -/
theorem FileTree.WellFormed.apart_findHeaders (h : tree.WellFormed) :
    (findHeaders tree filter root).Pairwise fun first second => first.sameAs second = false := by
  have hplaces := (h.places_findHeaders filter root).1
  rw [List.Nodup, List.pairwise_map] at hplaces
  refine hplaces.imp fun hne => Bool.eq_false_iff.mpr fun hsame => hne ?_
  rw [place?, place?, Path.fileName?, Path.fileName?, Path.sameAs_iff.mp hsame]

/-- A walk over a project ends on every tree and enters no directory twice.

Whatever links there are, the walk without a bound on its depth ends in one way, which is the way of the bounded one.
The directories that it reads are all different, so no two headers that discovery lists stand in the same directory
under the same name. -/
theorem walk_reads_directories_once (htree : tree.WellFormed) (root : Path) :
    (∀ filter : HeaderFilter, ∃ reads : List Location, reads.Nodup ∧
      (∀ location ∈ reads, tree.entry? location = some .directory) ∧
      ∀ taken after, Traverses tree filter root (.enter true root) ⟨[], []⟩ taken after ↔
        taken = reads ∧ after = walkDirectory tree filter root tree.depthBound true root ⟨[], []⟩) ∧
    ∀ (options : ScanOptions) (headers : List Path), discoverHeaders tree root options = .ok headers →
      (headers.map tree.place?).Nodup ∧ ∀ header ∈ headers, ∃ place, tree.place? header = some place := by
  constructor
  · intro filter
    obtain ⟨reads, htraverses, hnodup, hdirectory⟩ := exists_traverses_root tree filter root
    refine ⟨reads, hnodup, hdirectory, fun taken after => ⟨fun h => htraverses.unique h, ?_⟩⟩
    rintro ⟨rfl, rfl⟩
    exact htraverses
  · intro options headers h
    obtain ⟨excluded, -, hfound⟩ := bind_eq_ok_iff.mp h
    cases hfound
    exact htree.places_findHeaders _ root

/-- A header in one of two directories that link to each other, and one to itself and to the directory above. -/
def linkedProject : FileTree :=
  ⟨[(["src".toList], .directory),
    (["src".toList, "A.h".toList], .file (.text [])),
    (["src".toList, "self".toList], .link (.ofString ".")),
    (["src".toList, "up".toList], .link (.ofString "..")),
    (["src".toList, "other".toList], .link (.ofString "../lib")),
    (["lib".toList], .directory),
    (["lib".toList, "other".toList], .link (.ofString "../src")),
    (["lib".toList, "lost".toList], .link (.ofString "nowhere"))], []⟩

theorem walk_reads_directories_once_linkedProject : linkedProject.WellFormed ∧
    ∃ options headers, discoverHeaders linkedProject (.ofString ".") options = .ok headers ∧
      headers.length = 1 ∧ (headers.map linkedProject.place?).Nodup := by
  have htree : linkedProject.WellFormed := by decide +kernel
  have hfound : ((ScanOptions.ofConfig {}).toOption.bind fun options =>
      (discoverHeaders linkedProject (.ofString ".") options).toOption.map List.length) = some 1 := by decide +kernel
  obtain ⟨options, -, hdiscover⟩ := Option.bind_eq_some_iff.mp hfound
  obtain ⟨headers, hheaders, hlength⟩ := Option.map_eq_some_iff.mp hdiscover
  have hheaders := eq_ok_of_toOption hheaders
  have honce := (walk_reads_directories_once htree (.ofString ".")).2 options headers hheaders
  exact ⟨htree, options, headers, hheaders, hlength, honce.1⟩

end TaggedHeader
