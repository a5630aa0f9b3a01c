import TaggedHeader.Proofs.Path.Descent
import TaggedHeader.Proofs.Traversal

/-!
# The headers a project selects

In a tree without links a file below a root is a header when nothing on the way to it stops a walk: no name is
passed over, no rule ignores a directory on the way or the file itself, and no directory below the first one is a
project of its own. `IsReached` says so of a list of names, without a word about a walk. What is listed is
in strictly ascending order, so the list is the same in whatever order directories are read.
-/

namespace TaggedHeader

open Text FileTree

variable {tree : FileTree} {filter : HeaderFilter} {root directory header path : Path}
  {location : Location} {name : FileName} {names : List FileName} {isRoot : Bool}

/-- A filter from patterns and from two sets of ignore rules, each of which can ignore a path. -/
def HeaderFilter.ofRules (includes : Path → Bool) (gitignored excluded : Path → Bool → Bool) : HeaderFilter where
  includes := includes
  ignores path isDirectory := gitignored path isDirectory || excluded path isDirectory

/-- Nothing stops a walk on the way from a directory to a file below it. The way is given by its names, and the
directories that the first `trusted` of them lead to may have a configuration. -/
structure IsReached (tree : FileTree) (filter : HeaderFilter) (trusted : Nat) (directory : Path)
    (names : List FileName) : Prop where
  isFile : tree.isFile (directory.descend names) = true
  notPassedOver : ∀ name ∈ names, IsFileName name ∧ isPassedOver name = false
  notIgnored : ∀ above, above <+: names → above ≠ [] →
    filter.ignores (directory.descend above) (decide (above ≠ names)) = false
  noProject : ∀ above, above <+: names → above ≠ names → trusted < above.length →
    tree.hasConfig (directory.descend above) = false

/-- Nothing stops a walk on the way from the root to a file, and the patterns describe the file. -/
structure IsSelected (tree : FileTree) (filter : HeaderFilter) (root : Path) (names : List FileName) : Prop
    extends IsReached tree filter 1 root names where
  included : filter.includes ⟨joinWith '/' names⟩ = true

namespace IsReached

variable {trusted : Nat}

theorem ne_nil (h : IsReached tree filter trusted directory names)
    (hlookup : tree.lookup directory = .ok (location, .directory)) : names ≠ [] := by
  rintro rfl
  obtain ⟨place, content, hfile⟩ := isFile_iff.mp h.isFile
  cases hlookup.symm.trans hfile

/-- A walk that reaches a file from a directory on the way goes through this directory. -/
theorem cons_iff (hne : names ≠ []) : IsReached tree filter trusted directory (name :: names) ↔
    IsFileName name ∧ isPassedOver name = false ∧ filter.ignores (directory.join ⟨name⟩) true = false ∧
      (0 < trusted ∨ tree.hasConfig (directory.join ⟨name⟩) = false) ∧
        IsReached tree filter (trusted - 1) (directory.join ⟨name⟩) names := by
  constructor
  · intro h
    obtain ⟨⟨hname, hpassed⟩, hnames⟩ := List.forall_mem_cons.mp h.notPassedOver
    have hone : [name] ≠ name :: names := fun heq => hne (List.cons.inj heq).2.symm
    have hlonger : ∀ above, above <+: names → name :: above <+: name :: names := fun above =>
      List.cons_prefix_cons.mpr ∘ .intro rfl
    refine ⟨hname, hpassed, ?_, ?_, h.isFile, hnames, fun above habove hsome => ?_, fun above habove hother hlong => ?_⟩
    · have hignored := h.notIgnored [name] (hlonger [] List.nil_prefix) (List.cons_ne_nil _ _)
      rwa [decide_eq_true hone] at hignored
    · exact (Nat.eq_zero_or_pos trusted).symm.imp_right fun hzero =>
        h.noProject [name] (hlonger [] List.nil_prefix) hone (by simp [hzero])
    · have hignored := h.notIgnored (name :: above) (hlonger above habove) (List.cons_ne_nil _ _)
      simpa [Path.descend_cons] using hignored
    · refine h.noProject (name :: above) (hlonger above habove) (by simpa using hother) ?_
      rw [List.length_cons]
      omega
  · rintro ⟨hname, hpassed, hignored, hproject, h⟩
    refine ⟨h.isFile, List.forall_mem_cons.mpr ⟨⟨hname, hpassed⟩, h.notPassedOver⟩, fun above habove hsome => ?_,
      fun above habove hother hlong => ?_⟩
    · obtain ⟨rest, rfl, hrest⟩ := (List.prefix_cons_iff.mp habove).resolve_left hsome
      by_cases hnil : rest = []
      · subst hnil
        simpa [Path.descend, Ne.symm hne] using hignored
      · simpa [Path.descend_cons] using h.notIgnored rest hrest hnil
    · have hsome : above ≠ [] := List.ne_nil_of_length_pos (by omega)
      obtain ⟨rest, rfl, hrest⟩ := (List.prefix_cons_iff.mp habove).resolve_left hsome
      rw [List.length_cons] at hlong
      by_cases hnil : rest = []
      · subst hnil
        rw [List.length_nil] at hlong
        exact hproject.resolve_left (by omega)
      · have hlength := List.length_pos_iff.mpr hnil
        exact h.noProject rest hrest (fun heq => hother (by rw [heq])) (by omega)

theorem singleton_iff : IsReached tree filter trusted directory [name] ↔
    IsFileName name ∧ isPassedOver name = false ∧ filter.ignores (directory.join ⟨name⟩) false = false ∧
      tree.isFile (directory.join ⟨name⟩) = true := by
  constructor
  · intro h
    obtain ⟨hname, hpassed⟩ := h.notPassedOver name List.mem_cons_self
    have hignored := h.notIgnored [name] (List.prefix_refl [name]) (List.cons_ne_nil _ _)
    exact ⟨hname, hpassed, by simpa [Path.descend] using hignored, h.isFile⟩
  · rintro ⟨hname, hpassed, hignored, hfile⟩
    refine ⟨hfile, by simp [hname, hpassed], fun above habove hsome => ?_, fun above habove hother hlong => ?_⟩
    · obtain ⟨rest, rfl, hrest⟩ := (List.prefix_cons_iff.mp habove).resolve_left hsome
      rw [List.prefix_nil.mp hrest]
      simpa [Path.descend] using hignored
    · obtain ⟨rest, rfl, hrest⟩ :=
        (List.prefix_cons_iff.mp habove).resolve_left (List.ne_nil_of_length_pos (by omega))
      exact absurd (by rw [List.prefix_nil.mp hrest]) hother

end IsReached

/-! ## What a walk finds -/

/-- A file that is found is reached by names. -/
theorem Finds.exists_isReached (h : Finds tree filter root isRoot directory header) (htree : tree.IsPlain) :
    ∃ names, IsReached tree filter isRoot.toNat directory names ∧ header = directory.descend names ∧
      (header.stripPrefix? root).any filter.includes = true := by
  induction h with
  | @file isRoot directory location name hlookup hname htake =>
    obtain ⟨hpassed, hignored, -, hincluded⟩ := treatment_eq_take_iff.mp htake
    obtain ⟨hlocate, content, hentry⟩ := htree.exists_file_of_take hlookup hname htake
    have hfile : tree.isFile (directory.join ⟨name⟩) = true :=
      isFile_iff.mpr ⟨_, content, lookup_eq_ok_iff.mpr ⟨hlocate, hentry⟩⟩
    have hfilename := htree.wellFormed.isFileName_of_mem_namesIn hname
    exact ⟨[name], IsReached.singleton_iff.mpr ⟨hfilename, hpassed, hignored, hfile⟩, rfl, hincluded⟩
  | @deeper isRoot directory header location name hlookup hname henter h ih =>
    obtain ⟨names, hnames, rfl, hincluded⟩ := ih
    obtain ⟨hpassed, hignored, -, hproject⟩ := treatment_eq_enter_iff.mp henter
    have hfilename := htree.wellFormed.isFileName_of_mem_namesIn hname
    have hne := hnames.ne_nil (htree.lookup_of_enter hlookup hname henter)
    refine ⟨name :: names, (IsReached.cons_iff hne).mpr ⟨hfilename, hpassed, hignored, ?_, ?_⟩, rfl, hincluded⟩
    · exact hproject.imp_left fun hroot => by rw [hroot, Bool.toNat_true]; exact Nat.one_pos
    · rwa [Nat.sub_eq_zero_of_le (Bool.toNat_le isRoot)]

/-- A file that names reach is found. -/
theorem FileTree.IsPlain.finds_of_isReached (htree : tree.IsPlain)
    (hlookup : tree.lookup directory = .ok (location, .directory))
    (h : IsReached tree filter isRoot.toNat directory names)
    (hincluded : ((directory.descend names).stripPrefix? root).any filter.includes = true) :
    Finds tree filter root isRoot directory (directory.descend names) := by
  induction names generalizing directory location isRoot with
  | nil => exact absurd rfl (h.ne_nil hlookup)
  | cons name names ih =>
    obtain ⟨place, content, hfile⟩ := isFile_iff.mp h.isFile
    have hbelow : (directory.descend (name :: names)).IsBelow directory (name :: names) :=
      Path.isBelow_descend (fun name hname => (h.notPassedOver name hname).1) (List.cons_ne_nil name names)
    obtain ⟨above, hleads, rfl, hentry⟩ := (htree.lookup_below_iff hbelow).mp hfile
    cases hleads.unique (htree.leads_of_lookup hlookup)
    by_cases hlast : names = []
    · subst hlast
      obtain ⟨-, hpassed, hignored, hisFile⟩ := IsReached.singleton_iff.mp h
      obtain ⟨hname, -⟩ := htree.lookup_join hlookup hentry
      have hnot : tree.isDirectory (directory.join ⟨name⟩) = false := by
        refine Bool.eq_false_iff.mpr fun hdirectory => ?_
        obtain ⟨place, hdirectory⟩ := isDirectory_iff.mp hdirectory
        cases hfile.symm.trans hdirectory
      exact .file hlookup hname (treatment_eq_take_iff.mpr ⟨hpassed, hignored, hnot, hincluded⟩)
    · obtain ⟨-, hpassed, hignored, hproject, hrest⟩ := (IsReached.cons_iff hlast).mp h
      have hdirectory : tree.entry? (location ++ [name]) = some .directory :=
        htree.wellFormed.directory_above hlast (by rwa [List.append_assoc])
      obtain ⟨hname, hbelow⟩ := htree.lookup_join hlookup hdirectory
      have hreached : IsReached tree filter false.toNat (directory.join ⟨name⟩) names := by
        rwa [Nat.sub_eq_zero_of_le (Bool.toNat_le isRoot)] at hrest
      refine .deeper hlookup hname (treatment_eq_enter_iff.mpr ⟨hpassed, hignored, isDirectory_iff.mpr ⟨_, hbelow⟩, ?_⟩)
        (ih hbelow hreached hincluded)
      exact hproject.imp_left fun hpos => by simpa [Nat.pos_iff_ne_zero] using hpos

/-- Discovery lists the files that a project selects. -/
theorem FileTree.IsPlain.mem_findHeaders_iff_isSelected (h : tree.IsPlain) (hroot : tree.isDirectory root = true) :
    header ∈ findHeaders tree filter root ↔ ∃ names, IsSelected tree filter root names ∧ header = root.descend names := by
  obtain ⟨location, hlookup⟩ := isDirectory_iff.mp hroot
  have htext := text_ne_nil_of_locate (lookup_eq_ok_iff.mp hlookup).1
  have hrelative : ∀ names, IsReached tree filter 1 root names →
      (root.descend names).stripPrefix? root = some ⟨joinWith '/' names⟩ := fun names hnames =>
    Path.stripPrefix?_descend htext (fun name hname => (hnames.notPassedOver name hname).1) (hnames.ne_nil hlookup)
  rw [h.mem_findHeaders_iff]
  constructor
  · intro hfinds
    obtain ⟨names, hnames, rfl, hincluded⟩ := hfinds.exists_isReached h
    rw [hrelative names hnames] at hincluded
    exact ⟨names, ⟨hnames, hincluded⟩, rfl⟩
  · rintro ⟨names, hselected, rfl⟩
    refine h.finds_of_isReached hlookup hselected.toIsReached ?_
    rw [hrelative names hselected.toIsReached]
    exact hselected.included

/-! ## The order of the headers -/

/-- The strict order of paths. -/
def Path.StrictlyPrecedes (first second : Path) : Prop :=
  first.precedes second = true ∧ first.sameAs second = false

theorem Path.StrictlyPrecedes.asymm {first second : Path} (h : first.StrictlyPrecedes second) :
    ¬ second.StrictlyPrecedes first := fun h' => by
  have hsame := Path.sameAs_of_precedes h.1 h'.1
  rw [h.2] at hsame
  cases hsame

theorem FileTree.IsPlain.pairwise_findHeaders (h : tree.IsPlain) :
    (findHeaders tree filter root).Pairwise Path.StrictlyPrecedes := by
  have hordered : (findHeaders tree filter root).Pairwise fun first second => first.precedes second = true := by
    apply List.pairwise_mergeSort
    · exact fun first second third => Path.precedes_trans
    · exact Path.precedes_total
  exact hordered.and h.wellFormed.apart_findHeaders

/-- Lists in strictly ascending order with the same paths are the same list. -/
theorem Path.eq_of_strictlyPrecedes {left right : List Path} (hleft : left.Pairwise Path.StrictlyPrecedes)
    (hright : right.Pairwise Path.StrictlyPrecedes) (hmem : ∀ path, path ∈ left ↔ path ∈ right) : left = right := by
  have hnodup : ∀ {paths : List Path}, paths.Pairwise Path.StrictlyPrecedes → paths.Nodup := fun hpaths =>
    hpaths.imp fun {first second} hlt heq => by
      subst heq
      exact hlt.asymm hlt
  have hperm := (List.perm_ext_iff_of_nodup (hnodup hleft) (hnodup hright)).mpr hmem
  exact hperm.eq_of_pairwise (fun first second _ _ hlt hgt => absurd hgt hlt.asymm) hleft hright

/-! ## The order of directories -/

namespace FileTree

variable {other : FileTree}

/-- In a tree in which no location occurs twice, what is recorded for a location stands there. -/
theorem entry?_eq_some_iff (h : (tree.entries.map Prod.fst).Nodup) (hne : location ≠ []) {entry : FileEntry} :
    tree.entry? location = some entry ↔ (location, entry) ∈ tree.entries := by
  rw [entry?_of_ne_nil hne, Option.map_eq_some_iff]
  constructor
  · rintro ⟨item, hfind, rfl⟩
    have hlocation := List.find?_some hfind
    rw [← beq_iff_eq.mp hlocation]
    exact List.mem_of_find?_eq_some hfind
  · intro hmem
    cases hfind : tree.entries.find? (·.1 == location) with
    | none => exact absurd (beq_self_eq_true location) (List.find?_eq_none.mp hfind _ hmem)
    | some item =>
      have hlocation := List.find?_some hfind
      have hsame := List.inj_on_of_nodup_map h (List.mem_of_find?_eq_some hfind) hmem (beq_iff_eq.mp hlocation)
      exact ⟨item, rfl, by rw [hsame]⟩

/-- In whatever order entries are recorded, they stand at the same locations. -/
theorem entry?_eq_of_perm (h : (tree.entries.map Prod.fst).Nodup) (hperm : other.entries.Perm tree.entries) :
    other.entry? = tree.entry? := by
  funext location
  by_cases hroot : location = []
  · rw [hroot]
    rfl
  have hnodup := (hperm.map Prod.fst).nodup_iff.mpr h
  refine Option.ext fun entry => ?_
  rw [entry?_eq_some_iff hnodup hroot, entry?_eq_some_iff h hroot, hperm.mem_iff]

theorem IsPlain.of_perm (h : tree.IsPlain) (hperm : other.entries.Perm tree.entries)
    (hworking : other.workingDirectory = tree.workingDirectory) : other.IsPlain := by
  have hlocations := hperm.map Prod.fst
  obtain ⟨hdirectory, hnodup, hall⟩ := isPlain_iff.mp h
  rw [isPlain_iff, entry?_eq_of_perm hnodup hperm, hworking]
  exact ⟨hdirectory, hlocations.nodup_iff.mpr hnodup, fun location hlocation =>
    hall location (hlocations.mem_iff.mp hlocation)⟩

/-- Where steps lead to depends on the entries by their locations alone. -/
theorem walk_congr (hentry : other.entry? = tree.entry?) (keepLast : Bool) (links : Nat) :
    other.walk keepLast links = tree.walk keepLast links := by
  have hwith : ∀ follow here steps, other.walkWith keepLast follow here steps =
      tree.walkWith keepLast follow here steps := by
    intro follow here steps
    induction steps generalizing here with
    | nil => rfl
    | cons step steps ih =>
      cases step <;> simp only [walkWith, hentry, ih]
  induction links with
  | zero =>
    funext here steps
    rw [walk, walk, hwith]
  | succ links ih =>
    funext here steps
    rw [walk, walk, hwith, ih]

theorem lookup_congr (hentry : other.entry? = tree.entry?)
    (hworking : other.workingDirectory = tree.workingDirectory) : other.lookup = tree.lookup := by
  funext path
  simp only [lookup, locate, walk_congr hentry, hentry, hworking]

end FileTree

/-- Which files names reach depends on what paths lead to alone. -/
theorem IsReached.congr {other : FileTree} (hlookup : other.lookup = tree.lookup) {trusted : Nat} :
    IsReached other filter trusted directory names ↔ IsReached tree filter trusted directory names := by
  have hfile : other.isFile = tree.isFile := by
    funext path
    rw [FileTree.isFile, FileTree.isFile, hlookup]
  have hconfig : other.hasConfig = tree.hasConfig := by
    funext path
    rw [hasConfig, hasConfig, hfile]
  constructor
  · exact fun h => ⟨hfile ▸ h.isFile, h.notPassedOver, h.notIgnored, hconfig ▸ h.noProject⟩
  · exact fun h => ⟨hfile ▸ h.isFile, h.notPassedOver, h.notIgnored, hconfig ▸ h.noProject⟩

/-- Discovery lists the same headers in whatever order directories are read. -/
theorem FileTree.IsPlain.findHeaders_perm (h : tree.IsPlain) (hroot : tree.isDirectory root = true)
    {other : FileTree} (hperm : other.entries.Perm tree.entries)
    (hworking : other.workingDirectory = tree.workingDirectory) :
    findHeaders other filter root = findHeaders tree filter root := by
  have hother := h.of_perm hperm hworking
  have hlookup := lookup_congr (entry?_eq_of_perm h.wellFormed.nodup hperm) hworking
  have hroot' : other.isDirectory root = true := by rwa [FileTree.isDirectory, hlookup]
  refine Path.eq_of_strictlyPrecedes hother.pairwise_findHeaders h.pairwise_findHeaders fun header => ?_
  rw [hother.mem_findHeaders_iff_isSelected hroot', h.mem_findHeaders_iff_isSelected hroot]
  refine exists_congr fun names => and_congr_left' ?_
  exact ⟨fun h => ⟨(IsReached.congr hlookup).mp h.toIsReached, h.included⟩,
    fun h => ⟨(IsReached.congr hlookup).mpr h.toIsReached, h.included⟩⟩

/-! ## The headers of a project -/

/-- The ignore rules of the root's own file, unless they do not count. -/
def ScanOptions.ownRules (options : ScanOptions) (tree : FileTree) (root : Path) : IgnoreRules :=
  if options.disableGitignore then .below root [] else gitignoreRules tree root

/-- Discovery lists exactly the selected files, each once and in the order of paths, whatever the patterns and
rules say and in whatever order directories are read. -/
theorem findHeaders_lists_selected (htree : tree.IsPlain) (hroot : tree.isDirectory root = true)
    (includes : Path → Bool) (gitignored excluded : Path → Bool → Bool) :
    let filter := HeaderFilter.ofRules includes gitignored excluded
    (findHeaders tree filter root).Pairwise Path.StrictlyPrecedes ∧
      (∀ header, header ∈ findHeaders tree filter root ↔
        ∃ names, IsSelected tree filter root names ∧ header = root.descend names) ∧
      (∀ other : FileTree, other.entries.Perm tree.entries → other.workingDirectory = tree.workingDirectory →
        findHeaders other filter root = findHeaders tree filter root) ∧
      ∀ options rules, IgnoreRules.parse root options.excludes = .ok rules →
        discoverHeaders tree root options = .ok (findHeaders tree
          (.ofRules (fun path => options.includes.any (·.isMatch path.text)) (options.ownRules tree root).ignores
            rules.ignores) root) := by
  intro filter
  refine ⟨htree.pairwise_findHeaders, fun header => htree.mem_findHeaders_iff_isSelected hroot,
    fun other hperm hworking => htree.findHeaders_perm hroot hperm hworking, fun options rules hrules => ?_⟩
  exact bind_eq_ok_iff.mpr ⟨rules, mapError_eq_ok_iff.mpr hrules, rfl⟩

/-- A project with a header in a library, one that is private, one that is built and one of a nested project. -/
def libraryProject : FileTree :=
  ⟨[(["lib".toList, "Engine.h".toList], .file (.text [])),
    (["build".toList, "Engine.h".toList], .file (.text [])),
    (["lib".toList], .directory),
    (["build".toList], .directory),
    (["lib".toList, "Private.h".toList], .file (.text [])),
    (["lib".toList, "vendor".toList], .directory),
    (["lib".toList, "vendor".toList, "modtag.toml".toList], .file (.text [])),
    (["lib".toList, "vendor".toList, "Vendor.h".toList], .file (.text []))], []⟩

theorem findHeaders_lists_selected_libraryProject :
    libraryProject.IsPlain ∧ libraryProject.isDirectory (.ofString ".") = true ∧
      ∃ names, IsSelected libraryProject (.ofRules (fun path => (dropLastWord? ".h".toList path.text).isSome)
        (fun path isDirectory => isDirectory && path.text = "./build".toList)
        (fun path _ => path.text = "./lib/Private.h".toList)) (.ofString ".") names ∧
        Path.ofString "./lib/Engine.h" = (Path.ofString ".").descend names := by
  have hplain : libraryProject.IsPlain := by decide +kernel
  have hroot : libraryProject.isDirectory (.ofString ".") = true := by decide +kernel
  refine ⟨hplain, hroot, ((findHeaders_lists_selected hplain hroot _ _ _).2.1 _).mp ?_⟩
  decide +kernel

end TaggedHeader
