import Mathlib.Data.List.Find
import TaggedHeader.Proofs.Retracing
import TaggedHeader.Proofs.SelectedHeaders

/-!
# Finding the headers of a project again

After files were written into a project its settings and ignore rules are read as before, unless the files are
among those that hold them. What is found then is one of the files written, or was found before: new directories
hold nothing else, and a new configuration can only hide headers.
-/

namespace TaggedHeader

open Text FileTree

variable {tree grown : FileTree} {written : List Location} {filter : HeaderFilter} {root directory header path : Path}
  {options : ScanOptions} {found kept : List Path} {isRoot : Bool}

/-! ## Settings and ignore rules -/

/-- The ignore rules of a directory are read as before, if they are not among what was written and their place does not
lead elsewhere. -/
theorem FileTree.Extends.gitignoreRules_eq (h : tree.Extends grown written)
    (hbefore : LedBefore tree grown (root.join (.ofString ".gitignore")))
    (hnot : ∀ location ∈ written, grown.locate (root.join (.ofString ".gitignore")) ≠ .ok location) :
    gitignoreRules grown root = gitignoreRules tree root := by
  have hread : ∀ content, grown.read (root.join (.ofString ".gitignore")) = .ok content ↔
      tree.read (root.join (.ofString ".gitignore")) = .ok content := fun content => by
    rw [read_eq_ok_iff, read_eq_ok_iff]
    exact exists_congr fun location => h.lookup_file_iff hbefore hnot
  unfold gitignoreRules
  cases hafter : grown.read (root.join (.ofString ".gitignore")) with
  | ok content => rw [(hread content).mp hafter]
  | error error =>
    cases hbefore : tree.read (root.join (.ofString ".gitignore")) with
    | ok content =>
      rw [(hread content).mpr hbefore] at hafter
      cases hafter
    | error error => rfl

/-- The filter of a search for headers in a directory, if its rules can be read. -/
def searchFilter (tree : FileTree) (root : Path) (options : ScanOptions) :
    Except (Text × IgnoreRule.SyntaxError) HeaderFilter :=
  (IgnoreRules.parse root options.excludes).map fun rules =>
    .ofRules (fun path => options.includes.any (·.isMatch path.text)) (options.ownRules tree root).ignores rules.ignores

/-- A search for headers goes by its filter. -/
theorem discoverHeaders_eq_ok_iff : discoverHeaders tree root options = .ok found ↔
    ∃ filter, searchFilter tree root options = .ok filter ∧ found = findHeaders tree filter root := by
  rw [searchFilter]
  cases hrules : IgnoreRules.parse root options.excludes with
  | error fault => simp [discoverHeaders, hrules, Except.map, Except.mapError, bind, Except.bind]
  | ok rules =>
    have hfound : discoverHeaders tree root options = .ok (findHeaders tree
        (.ofRules (fun path => options.includes.any (·.isMatch path.text)) (options.ownRules tree root).ignores
          rules.ignores) root) := bind_eq_ok_iff.mpr ⟨rules, mapError_eq_ok_iff.mpr hrules, rfl⟩
    simp [hfound, Except.map, eq_comm]

/-! ## Headers -/

/-- Whether a path leads to a file that is among those written, or is one that was found before. -/
structure FoundAgain (grown : FileTree) (written : List Location) (found : List Path) (header : Path) : Prop where
  notAsks : header.asksForDirectory = false
  known : (∃ place ∈ written, grown.locate header = .ok place) ∨ ∃ before ∈ found, before.sameAs header = true

theorem FoundAgain.imp (h : FoundAgain grown written found header)
    (hkept : ∀ before ∈ found, ∃ other ∈ kept, other.sameAs before = true) :
    FoundAgain grown written kept header := by
  refine ⟨h.notAsks, h.known.imp_right fun ⟨before, hmem, hsame⟩ => ?_⟩
  obtain ⟨other, hother, hsame'⟩ := hkept before hmem
  exact ⟨other, hother, Path.sameAs_iff.mpr ((Path.sameAs_iff.mp hsame').trans (Path.sameAs_iff.mp hsame))⟩

/-- What a walk finds ends in the name of a file. -/
theorem Finds.notAsks (h : Finds tree filter root isRoot directory header) (htree : tree.WellFormed) :
    header.asksForDirectory = false := by
  induction h with
  | @file isRoot directory location name hlookup hname htake =>
    have hfile := htree.isFileName_of_mem_namesIn hname
    exact directory.asksForDirectory_join hfile.noSlash hfile.notIdle
  | deeper hlookup hname henter h ih => exact ih

/-- A search in the footsteps of another finds what was written, or was found before. -/
theorem Retraceable.foundAgain (h : Retraceable tree grown written filter root)
    (hheader : header ∈ findHeaders grown filter root) :
    FoundAgain grown written (findHeaders tree filter root) header := by
  obtain ⟨reads, htraverses, -, -⟩ := exists_traverses_root grown filter root
  have hstart : Walk.IsIn tree ⟨[], []⟩ := ⟨List.nodup_nil, List.forall_mem_nil _⟩
  obtain ⟨taken, after, htaken, htracks⟩ := h.retraced htraverses .nil .nil (.enter rfl rfl) hstart
    ⟨List.forall_mem_nil _, List.forall_mem_nil _, List.forall_mem_nil _⟩
  obtain ⟨reads', htraverses', -, -⟩ := exists_traverses_root tree filter root
  obtain ⟨-, rfl⟩ := htaken.unique htraverses'
  refine ⟨(finds_of_mem_findHeaders hheader).notAsks h.new, ?_⟩
  rw [findHeaders, List.mem_mergeSort] at hheader
  refine (htracks.headers header hheader).imp_right fun hbefore => ⟨header, ?_, Path.sameAs_iff.mpr rfl⟩
  rw [findHeaders, List.mem_mergeSort]
  exact hbefore

/-- The headers found again are those found before or among what was written, and no two of them are the same
file. -/
theorem FileTree.Extends.discoverHeaders (h : tree.Extends grown written) (hgrown : grown.WellFormed)
    (hbefore : LedBefore tree grown (root.join (.ofString ".gitignore")))
    (hnot : ∀ location ∈ written, grown.locate (root.join (.ofString ".gitignore")) ≠ .ok location)
    (hsearch : ∀ filter, searchFilter grown root options = .ok filter → Retraceable tree grown written filter root)
    (hfound : discoverHeaders tree root options = .ok found) :
    ∃ again, TaggedHeader.discoverHeaders grown root options = .ok again ∧
      (again.Pairwise fun first second => first.sameAs second = false) ∧
      ∀ header ∈ again, FoundAgain grown written found header := by
  obtain ⟨filter, hfilter, rfl⟩ := discoverHeaders_eq_ok_iff.mp hfound
  have hfilter' : searchFilter grown root options = .ok filter := by
    rw [← hfilter, searchFilter, searchFilter, ScanOptions.ownRules, ScanOptions.ownRules,
      h.gitignoreRules_eq hbefore hnot]
  exact ⟨_, discoverHeaders_eq_ok_iff.mpr ⟨filter, hfilter', rfl⟩, hgrown.apart_findHeaders, fun header =>
    (hsearch filter hfilter').foundAgain⟩

end TaggedHeader
