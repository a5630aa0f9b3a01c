import Mathlib.Data.List.Nodup
import TaggedHeader.Discovery
import TaggedHeader.Proofs.FileTree.Resolving

/-!
# The headers that are found

`Finds` says which files a walk through a project comes upon, without a word about the order, about depth or
about directories entered before. In a tree without links the walk finds all of these files and finds each of
them once: it is the plain recursion `headersBelow`, since no directory is reached on two ways and none lies
deeper than there are entries.
-/

namespace TaggedHeader

open Text FileTree

variable {tree : FileTree} {filter : HeaderFilter} {root directory header path : Path}
  {location : Location} {name : FileName} {isRoot : Bool} {depth : Nat}

/-! ## Names in a directory -/

namespace FileTree

theorem eq_append_of_getLast? {place : Location} (hparent : place.dropLast = location)
    (hlast : place.getLast? = some name) : place = location ++ [name] := by
  obtain ⟨front, rfl⟩ := List.getLast?_eq_some_iff.mp hlast
  rw [List.dropLast_concat] at hparent
  rw [hparent]

/-- The names in a directory, by the locations recorded. -/
theorem namesIn_eq (tree : FileTree) (location : Location) : tree.namesIn location =
    (tree.entries.map Prod.fst).filterMap fun place =>
      if place.dropLast = location then place.getLast? else none := by
  rw [List.filterMap_map]
  rfl

theorem mem_namesIn_iff : name ∈ tree.namesIn location ↔ location ++ [name] ∈ tree.entries.map Prod.fst := by
  rw [namesIn_eq, List.mem_filterMap]
  constructor
  · rintro ⟨place, hplace, hname⟩
    split at hname
    · rename_i hparent
      rwa [← eq_append_of_getLast? hparent hname]
    · cases hname
  · intro hplace
    exact ⟨location ++ [name], hplace, by simp⟩

theorem WellFormed.nodup_namesIn (h : tree.WellFormed) (location : Location) : (tree.namesIn location).Nodup := by
  rw [namesIn_eq]
  refine h.nodup.filterMap fun first second name hfirst hsecond => ?_
  split at hfirst
  · split at hsecond
    · rename_i hparent hparent'
      rw [eq_append_of_getLast? hparent hfirst, eq_append_of_getLast? hparent' hsecond]
    · cases hsecond
  · cases hfirst

end FileTree

/-! ## Configurations -/

/-- The places of a configuration are reached from any directory by the same names. -/
theorem exists_isBelow_of_mem_configCandidates {candidate : Path} (h : candidate ∈ configCandidates) :
    ∃ names, ∀ base : Path, (base.join candidate).IsBelow base names := by
  have hfile : IsFileName "modtag.toml".toList := by decide
  simp only [configCandidates, List.mem_cons, List.not_mem_nil, or_false] at h
  rcases h with rfl | rfl | rfl
  · exact ⟨_, fun base => base.isBelow_join hfile⟩
  · exact ⟨_, fun base => base.isBelow_join (show IsFileName ".modtag.toml".toList by decide)⟩
  · have hdirectory : IsFileName ".config".toList := by decide
    refine ⟨[".config".toList, "modtag.toml".toList], fun base => ?_⟩
    rw [show Path.ofString ".config/modtag.toml" = ⟨".config".toList ++ '/' :: "modtag.toml".toList⟩ from rfl,
      base.join_join hdirectory hfile]
    exact (base.isBelow_join hdirectory).join hfile

/-- What the same names lead to from directories with the same steps is the same. -/
theorem FileTree.lookup_eq_of_isBelow {first second base base' : Path} {names : List FileName}
    (hbase : base.components = base'.components) (hfirst : first.IsBelow base names)
    (hsecond : second.IsBelow base' names) : tree.lookup first = tree.lookup second := by
  have hsteps : first.requestedSteps = second.requestedSteps := by
    rw [Path.requestedSteps, Path.requestedSteps, hfirst.notAsks, hsecond.notAsks, hfirst.components,
      hsecond.components, hbase]
  have hlocate : tree.locate first = tree.locate second := by
    rw [locate, locate, if_neg hfirst.text_ne_nil, if_neg hsecond.text_ne_nil, hsteps]
  rw [lookup, lookup, hlocate]

/-- Whether a directory has a configuration depends on its steps alone. -/
theorem FileTree.hasConfig_congr {first second : Path} (h : first.components = second.components) :
    tree.hasConfig first = tree.hasConfig second := by
  rw [hasConfig, hasConfig, configPaths, configPaths, List.any_map, List.any_map, Bool.eq_iff_iff, List.any_eq_true,
    List.any_eq_true]
  refine exists_congr fun candidate => and_congr_right fun hcandidate => ?_
  obtain ⟨names, hbelow⟩ := exists_isBelow_of_mem_configCandidates hcandidate
  simp only [Function.comp, isFile, lookup_eq_of_isBelow h (hbelow first) (hbelow second)]

/-! ## What a walk does with a name -/

/-- What a walk does with a name in a directory. -/
inductive Treatment where
  | skip
  | enter
  | take
deriving DecidableEq, Repr

/-- What a walk does with a name, by the path that it is reached by. -/
def treatment (tree : FileTree) (filter : HeaderFilter) (root : Path) (isRoot : Bool) (path : Path)
    (name : FileName) : Treatment :=
  if isPassedOver name || filter.ignores path (tree.isDirectory path) then .skip
  else if tree.isDirectory path then
    if !isRoot && tree.hasConfig path then .skip else .enter
  else if (path.stripPrefix? root).any filter.includes then .take
  else .skip

theorem treatment_eq_take_iff : treatment tree filter root isRoot path name = .take ↔
    isPassedOver name = false ∧ filter.ignores path false = false ∧ tree.isDirectory path = false ∧
      (path.stripPrefix? root).any filter.includes = true := by
  unfold treatment
  cases tree.isDirectory path with
  | true =>
    cases isPassedOver name <;> cases filter.ignores path true <;> cases !isRoot && tree.hasConfig path <;> simp
  | false => cases isPassedOver name <;> cases filter.ignores path false <;> simp

theorem treatment_eq_enter_iff : treatment tree filter root isRoot path name = .enter ↔
    isPassedOver name = false ∧ filter.ignores path true = false ∧ tree.isDirectory path = true ∧
      (isRoot = true ∨ tree.hasConfig path = false) := by
  unfold treatment
  cases tree.isDirectory path with
  | true =>
    cases isPassedOver name <;> cases filter.ignores path true <;> cases isRoot <;> cases tree.hasConfig path <;> simp
  | false => split_ifs <;> simp_all

/-- A file that a walk from a directory comes upon and takes as a header. -/
inductive Finds (tree : FileTree) (filter : HeaderFilter) (root : Path) :
    (isRoot : Bool) → (directory header : Path) → Prop
  | file {isRoot : Bool} {directory : Path} {location : Location} {name : FileName}
    (hlookup : tree.lookup directory = .ok (location, .directory)) (hname : name ∈ tree.namesIn location)
    (htake : treatment tree filter root isRoot (directory.join ⟨name⟩) name = .take) :
    Finds tree filter root isRoot directory (directory.join ⟨name⟩)
  | deeper {isRoot : Bool} {directory header : Path} {location : Location} {name : FileName}
    (hlookup : tree.lookup directory = .ok (location, .directory)) (hname : name ∈ tree.namesIn location)
    (henter : treatment tree filter root isRoot (directory.join ⟨name⟩) name = .enter)
    (h : Finds tree filter root false (directory.join ⟨name⟩) header) :
    Finds tree filter root isRoot directory header

/-- The headers in and below a directory, down to a depth. -/
def headersBelow (tree : FileTree) (filter : HeaderFilter) (root : Path) :
    (depth : Nat) → (isRoot : Bool) → (directory : Path) → List Path
  | 0, _, _ => []
  | depth + 1, isRoot, directory =>
    match tree.lookup directory with
    | .ok (location, .directory) => (tree.namesIn location).flatMap fun name =>
      match treatment tree filter root isRoot (directory.join ⟨name⟩) name with
      | .skip => []
      | .enter => headersBelow tree filter root depth false (directory.join ⟨name⟩)
      | .take => [directory.join ⟨name⟩]
    | _ => []

/-- The headers at a name in a directory: the file or what is below. -/
def headersAt (tree : FileTree) (filter : HeaderFilter) (root : Path) (depth : Nat) (isRoot : Bool)
    (directory : Path) (name : FileName) : List Path :=
  match treatment tree filter root isRoot (directory.join ⟨name⟩) name with
  | .skip => []
  | .enter => headersBelow tree filter root depth false (directory.join ⟨name⟩)
  | .take => [directory.join ⟨name⟩]

theorem headersBelow_eq_flatMap (hlookup : tree.lookup directory = .ok (location, .directory)) :
    headersBelow tree filter root (depth + 1) isRoot directory =
      (tree.namesIn location).flatMap (headersAt tree filter root depth isRoot directory) := by
  rw [headersBelow, hlookup]
  rfl

theorem headersBelow_eq_nil (hlookup : ∀ location, tree.lookup directory ≠ .ok (location, .directory)) :
    headersBelow tree filter root depth isRoot directory = [] := by
  cases depth with
  | zero => rfl
  | succ depth =>
    rw [headersBelow]
    split
    · rename_i location hfound
      exact absurd hfound (hlookup location)
    · rfl

/-! ## The walk as a plain recursion -/

/-- What a walk has met behind a name in a directory. -/
def visitName (tree : FileTree) (filter : HeaderFilter) (root : Path) (depth : Nat) (isRoot : Bool)
    (directory : Path) (walk : Walk) (name : FileName) : Walk :=
  match treatment tree filter root isRoot (directory.join ⟨name⟩) name with
  | .skip => walk
  | .enter => walkDirectory tree filter root depth false (directory.join ⟨name⟩) walk
  | .take => { walk with headers := directory.join ⟨name⟩ :: walk.headers }

/-- A walk through a directory goes from name to name. -/
theorem walkDirectory_eq_foldl {walk : Walk} (hlookup : tree.lookup directory = .ok (location, .directory))
    (hfresh : location ∉ walk.visited) : walkDirectory tree filter root (depth + 1) isRoot directory walk =
      (tree.namesIn location).foldl (visitName tree filter root depth isRoot directory)
        { walk with visited := location :: walk.visited } := by
  rw [walkDirectory, hlookup]
  simp only [if_neg hfresh]
  congr 1
  funext walk name
  unfold visitName treatment
  split_ifs <;> rfl

/-- A walk through what is no directory meets nothing. -/
theorem walkDirectory_eq_self {walk : Walk}
    (hlookup : ∀ location, tree.lookup directory ≠ .ok (location, .directory)) :
    walkDirectory tree filter root depth isRoot directory walk = walk := by
  cases depth with
  | zero => rfl
  | succ depth =>
    rw [walkDirectory]
    split
    · rename_i location hfound
      exact absurd hfound (hlookup location)
    · rfl

/-- A walk enters no directory twice. -/
theorem walkDirectory_of_visited {walk : Walk} (hlookup : tree.lookup directory = .ok (location, .directory))
    (hvisited : location ∈ walk.visited) : walkDirectory tree filter root depth isRoot directory walk = walk := by
  cases depth with
  | zero => rfl
  | succ depth =>
    rw [walkDirectory, hlookup]
    exact if_pos hvisited

/-- What a walk adds to what it has met before: headers, and directories at or below a location. -/
structure Walk.Adds (walk after : Walk) (location : Location) (headers : List Path) : Prop where
  headers : after.headers = headers.reverse ++ walk.headers
  visited : ∀ place ∈ after.visited, place ∈ walk.visited ∨ location <+: place

/-- Names in one directory lead apart. -/
theorem eq_of_prefixes {first second : FileName} {place : Location} (hfirst : location ++ [first] <+: place)
    (hsecond : location ++ [second] <+: place) : first = second := by
  have hsame := List.prefix_of_prefix_length_le hfirst hsecond (by simp)
  simpa using hsame.eq_of_length (by simp)

/-- Going from name to name adds what is added for each of them. -/
theorem Walk.adds_foldl {visit : Walk → FileName → Walk} {headers : FileName → List Path}
    {names : List FileName} (hnodup : names.Nodup) (hvisit : ∀ name ∈ names, ∀ walk : Walk,
      (∀ place ∈ walk.visited, ¬ location ++ [name] <+: place) →
        walk.Adds (visit walk name) (location ++ [name]) (headers name))
    {walk : Walk} (hfresh : ∀ name ∈ names, ∀ place ∈ walk.visited, ¬ location ++ [name] <+: place) :
    walk.Adds (names.foldl visit walk) location (names.flatMap headers) := by
  induction names generalizing walk with
  | nil => exact ⟨rfl, fun place hplace => .inl hplace⟩
  | cons name names ih =>
    obtain ⟨hname, hnodup⟩ := List.nodup_cons.mp hnodup
    have hfirst := hvisit name List.mem_cons_self walk (hfresh name List.mem_cons_self)
    have hstillFresh : ∀ other ∈ names, ∀ place ∈ (visit walk name).visited, ¬ location ++ [other] <+: place := by
      intro other hother place hplace hprefix
      rcases hfirst.visited place hplace with hbefore | hbelow
      · exact hfresh other (List.mem_cons_of_mem _ hother) place hbefore hprefix
      · exact hname (eq_of_prefixes hprefix hbelow ▸ hother)
    have hrest := ih hnodup (fun other hother => hvisit other (List.mem_cons_of_mem _ hother)) hstillFresh
    refine ⟨?_, fun place hplace => ?_⟩
    · rw [List.foldl_cons, hrest.headers, hfirst.headers, List.flatMap_cons, List.reverse_append, List.append_assoc]
    · rcases hrest.visited place hplace with hplace | hbelow
      · exact (hfirst.visited place hplace).imp_right (List.prefix_append location [name]).trans
      · exact .inr hbelow

/-- A name in a directory is one that a file can have. -/
theorem FileTree.WellFormed.isFileName_of_mem_namesIn (h : tree.WellFormed) (hname : name ∈ tree.namesIn location) :
    IsFileName name :=
  h.names _ (mem_namesIn_iff.mp hname) name (by simp)

/-- What stands in a directory is found there by its name. -/
theorem FileTree.IsPlain.lookup_join (h : tree.IsPlain) (hlookup : tree.lookup directory = .ok (location, .directory))
    {entry : FileEntry} (hentry : tree.entry? (location ++ [name]) = some entry) :
    name ∈ tree.namesIn location ∧ tree.lookup (directory.join ⟨name⟩) = .ok (location ++ [name], entry) := by
  have hname := mem_namesIn_iff.mpr (mem_locations hentry (List.concat_ne_nil name location))
  have hlocate := h.locate_join hlookup (h.wellFormed.isFileName_of_mem_namesIn hname)
  exact ⟨hname, lookup_eq_ok_iff.mpr ⟨hlocate, hentry⟩⟩

/-- A directory that a walk enters is the one of the name. -/
theorem FileTree.IsPlain.lookup_of_enter (h : tree.IsPlain)
    (hlookup : tree.lookup directory = .ok (location, .directory)) (hname : name ∈ tree.namesIn location)
    (henter : treatment tree filter root isRoot (directory.join ⟨name⟩) name = .enter) :
    tree.lookup (directory.join ⟨name⟩) = .ok (location ++ [name], .directory) := by
  obtain ⟨place, hplace⟩ := isDirectory_iff.mp (treatment_eq_enter_iff.mp henter).2.2.1
  obtain ⟨hlocate, hentry⟩ := lookup_eq_ok_iff.mp hplace
  rw [h.locate_join hlookup (h.wellFormed.isFileName_of_mem_namesIn hname)] at hlocate
  cases hlocate
  exact hplace

/-- A walk from a directory below which it has not been adds the headers there and below. -/
theorem FileTree.IsPlain.adds_walkDirectory (h : tree.IsPlain)
    (hlookup : tree.lookup directory = .ok (location, .directory)) {walk : Walk}
    (hfresh : ∀ place ∈ walk.visited, ¬ location <+: place) :
    walk.Adds (walkDirectory tree filter root depth isRoot directory walk) location
      (headersBelow tree filter root depth isRoot directory) := by
  induction depth generalizing isRoot directory location walk with
  | zero => exact ⟨rfl, fun place hplace => .inl hplace⟩
  | succ depth ih =>
    have hnot : location ∉ walk.visited := fun hmem => hfresh location hmem (List.prefix_refl location)
    have hadds : Walk.Adds { walk with visited := location :: walk.visited }
        ((tree.namesIn location).foldl (visitName tree filter root depth isRoot directory)
          { walk with visited := location :: walk.visited }) location
        ((tree.namesIn location).flatMap (headersAt tree filter root depth isRoot directory)) := by
      refine Walk.adds_foldl (h.wellFormed.nodup_namesIn location) (fun name hname walk hfresh => ?_)
        fun name hname place hplace hprefix => ?_
      · unfold visitName headersAt
        cases htreatment : treatment tree filter root isRoot (directory.join ⟨name⟩) name with
        | skip => exact ⟨rfl, fun place hplace => .inl hplace⟩
        | enter => exact ih (h.lookup_of_enter hlookup hname htreatment) hfresh
        | take => exact ⟨rfl, fun place hplace => .inl hplace⟩
      · rcases List.mem_cons.mp hplace with rfl | hbefore
        · exact absurd hprefix.length_le (by simp)
        · exact hfresh place hbefore ((List.prefix_append location [name]).trans hprefix)
    rw [walkDirectory_eq_foldl hlookup hnot, headersBelow_eq_flatMap hlookup]
    refine ⟨hadds.headers, fun place hplace => ?_⟩
    rcases hadds.visited place hplace with hbefore | hbelow
    · rcases List.mem_cons.mp hbefore with rfl | hbefore
      · exact .inr (List.prefix_refl place)
      · exact .inl hbefore
    · exact .inr hbelow

/-! ## What is found -/

/-- A file that a walk takes stands under its name. -/
theorem FileTree.IsPlain.exists_file_of_take (h : tree.IsPlain)
    (hlookup : tree.lookup directory = .ok (location, .directory)) (hname : name ∈ tree.namesIn location)
    (htake : treatment tree filter root isRoot (directory.join ⟨name⟩) name = .take) :
    tree.locate (directory.join ⟨name⟩) = .ok (location ++ [name]) ∧
      ∃ content, tree.entry? (location ++ [name]) = some (.file content) := by
  obtain ⟨entry, hentry⟩ := exists_entry_of_mem_locations (mem_namesIn_iff.mp hname)
  obtain ⟨-, hbelow⟩ := h.lookup_join hlookup hentry
  refine ⟨(lookup_eq_ok_iff.mp hbelow).1, ?_⟩
  cases entry with
  | file content => exact ⟨content, hentry⟩
  | link target => exact absurd hentry (h.linkFree _ target)
  | directory =>
    have hnot := (treatment_eq_take_iff.mp htake).2.2.1
    rw [isDirectory_iff.mpr ⟨_, hbelow⟩] at hnot
    cases hnot

/-- Files are found from directories only. -/
theorem Finds.exists_lookup (h : Finds tree filter root isRoot directory header) :
    ∃ location, tree.lookup directory = .ok (location, .directory) := by
  cases h with
  | file hlookup => exact ⟨_, hlookup⟩
  | deeper hlookup => exact ⟨_, hlookup⟩

/-- A file that is found lies below the directory that it is found from, and is listed if the depth allows. -/
theorem Finds.located (h : Finds tree filter root isRoot directory header) (hplain : tree.IsPlain) :
    ∀ {location : Location}, tree.lookup directory = .ok (location, .directory) →
      ∃ place, tree.locate header = .ok place ∧ (∃ content, tree.entry? place = some (.file content)) ∧
        location <+: place ∧ ∀ depth, place.length ≤ location.length + depth →
          header ∈ headersBelow tree filter root depth isRoot directory := by
  induction h with
  | @file isRoot directory location name hlookup hname htake =>
    intro location' hlookup'
    cases hlookup.symm.trans hlookup'
    obtain ⟨hlocate, hfile⟩ := hplain.exists_file_of_take hlookup hname htake
    refine ⟨_, hlocate, hfile, List.prefix_append location [name], fun depth hdepth => ?_⟩
    cases depth with
    | zero =>
      rw [List.length_append, List.length_singleton] at hdepth
      omega
    | succ depth =>
      rw [headersBelow_eq_flatMap hlookup, List.mem_flatMap]
      exact ⟨name, hname, by rw [headersAt, htake]; exact List.mem_cons_self⟩
  | @deeper isRoot directory header location name hlookup hname henter h ih =>
    intro location' hlookup'
    cases hlookup.symm.trans hlookup'
    obtain ⟨place, hlocate, hfile, hprefix, hlisted⟩ := ih (hplain.lookup_of_enter hlookup hname henter)
    refine ⟨place, hlocate, hfile, (List.prefix_append location [name]).trans hprefix, fun depth hdepth => ?_⟩
    have hlength := hprefix.length_le
    rw [List.length_append, List.length_singleton] at hlength
    cases depth with
    | zero => omega
    | succ depth =>
      rw [headersBelow_eq_flatMap hlookup, List.mem_flatMap]
      refine ⟨name, hname, ?_⟩
      rw [headersAt, henter]
      refine hlisted depth ?_
      rw [List.length_append, List.length_singleton]
      omega

/-- Only files that are found are listed. -/
theorem finds_of_mem_headersBelow (h : header ∈ headersBelow tree filter root depth isRoot directory) :
    Finds tree filter root isRoot directory header := by
  induction depth generalizing isRoot directory with
  | zero => cases h
  | succ depth ih =>
    by_cases hlookup : ∃ location, tree.lookup directory = .ok (location, .directory)
    · obtain ⟨location, hlookup⟩ := hlookup
      rw [headersBelow_eq_flatMap hlookup] at h
      obtain ⟨name, hname, hheader⟩ := List.mem_flatMap.mp h
      unfold headersAt at hheader
      cases htreatment : treatment tree filter root isRoot (directory.join ⟨name⟩) name with
      | skip =>
        rw [htreatment] at hheader
        cases hheader
      | enter =>
        rw [htreatment] at hheader
        exact .deeper hlookup hname htreatment (ih hheader)
      | take =>
        rw [htreatment] at hheader
        rw [List.mem_singleton.mp hheader]
        exact .file hlookup hname htreatment
    · rw [headersBelow_eq_nil (not_exists.mp hlookup)] at h
      cases h

/-- A walk takes only files that are found, whatever links it follows. -/
theorem finds_of_mem_walkDirectory {walk : Walk}
    (h : header ∈ (walkDirectory tree filter root depth isRoot directory walk).headers) :
    header ∈ walk.headers ∨ Finds tree filter root isRoot directory header := by
  induction depth generalizing isRoot directory walk with
  | zero => exact .inl h
  | succ depth ih =>
    by_cases hlookup : ∃ location, tree.lookup directory = .ok (location, .directory)
    · obtain ⟨location, hlookup⟩ := hlookup
      by_cases hvisited : location ∈ walk.visited
      · rw [walkDirectory_of_visited hlookup hvisited] at h
        exact .inl h
      rw [walkDirectory_eq_foldl hlookup hvisited] at h
      revert h
      refine List.foldlRecOn _ _ (motive := fun after : Walk => header ∈ after.headers →
        header ∈ walk.headers ∨ Finds tree filter root isRoot directory header) .inl
        fun after hafter name hname hheader => ?_
      unfold visitName at hheader
      cases htreatment : treatment tree filter root isRoot (directory.join ⟨name⟩) name with
      | skip =>
        rw [htreatment] at hheader
        exact hafter hheader
      | enter =>
        rw [htreatment] at hheader
        exact (ih hheader).elim hafter fun hfinds => .inr (.deeper hlookup hname htreatment hfinds)
      | take =>
        rw [htreatment] at hheader
        rcases List.mem_cons.mp hheader with rfl | hbefore
        · exact .inr (.file hlookup hname htreatment)
        · exact hafter hbefore
    · rw [walkDirectory_eq_self (not_exists.mp hlookup)] at h
      exact .inl h

/-- Discovery lists only files that are found. -/
theorem finds_of_mem_findHeaders (h : header ∈ findHeaders tree filter root) :
    Finds tree filter root true root header := by
  rw [findHeaders, List.mem_mergeSort] at h
  exact (finds_of_mem_walkDirectory h).resolve_left List.not_mem_nil

/-- The headers that discovery lists, before they are ordered. -/
theorem FileTree.IsPlain.findHeaders_eq (h : tree.IsPlain) : findHeaders tree filter root =
    (headersBelow tree filter root tree.depthBound true root).reverse.mergeSort Path.precedes := by
  rw [findHeaders]
  by_cases hlookup : ∃ location, tree.lookup root = .ok (location, .directory)
  · obtain ⟨location, hlookup⟩ := hlookup
    rw [(h.adds_walkDirectory hlookup (by simp)).headers, List.append_nil]
  · rw [walkDirectory_eq_self (not_exists.mp hlookup), headersBelow_eq_nil (not_exists.mp hlookup)]
    rfl

/-- Discovery lists the files that are found from the root. -/
theorem FileTree.IsPlain.mem_findHeaders_iff (h : tree.IsPlain) :
    header ∈ findHeaders tree filter root ↔ Finds tree filter root true root header := by
  rw [h.findHeaders_eq, List.mem_mergeSort, List.mem_reverse]
  refine ⟨finds_of_mem_headersBelow, fun hfinds => ?_⟩
  obtain ⟨location, hlookup⟩ := hfinds.exists_lookup
  obtain ⟨place, -, ⟨content, hfile⟩, -, hlisted⟩ := hfinds.located h hlookup
  have hlength := h.wellFormed.length_le hfile
  exact hlisted _ (by rw [FileTree.depthBound]; omega)

end TaggedHeader
