import TaggedHeader.Proofs.Discovery

/-!
# Nested projects

A directory with a configuration is a project, and below the root of another one it is a nested project. A walk asks
for the configuration of a directory where it meets the directory's name, but not while it lists the root: nothing is
taken from a nested project that lies deeper, while one right below the root is walked through like any other
directory. `Finds.nested` follows the way from the root to a header and looks at each directory on it, whatever links
the tree has and however its paths are spelled.
-/

namespace TaggedHeader

open Text FileTree

variable {tree : FileTree} {filter : HeaderFilter} {root directory header path first second : Path}
  {location : Location} {name : FileName} {isRoot : Bool} {depth : Nat} {walk : Walk}

/-- A path goes on from another one, by at least one step. -/
structure Path.Within (path base : Path) : Prop where
  steps : base.components <+: path.components
  longer : base.components.length < path.components.length

/-- A header in a directory, or below it, that is a project of its own below the root. -/
structure InNestedProject (tree : FileTree) (root directory header : Path) : Prop where
  nested : directory.Within root
  hasConfig : tree.hasConfig directory = true
  within : header.Within directory

theorem Path.Within.trans (h : first.Within second) {third : Path} (h' : second.Within third) : first.Within third :=
  ⟨h'.steps.trans h.steps, h'.longer.trans h.longer⟩

theorem Path.within_join (base : Path) (h : IsFileName name) : (base.join ⟨name⟩).Within base := by
  constructor <;> simp [base.components_join h]

/-! ## The way to a header -/

theorem Finds.within (h : Finds tree filter root isRoot directory header) (htree : tree.WellFormed) :
    header.Within directory := by
  induction h with
  | file hlookup hname htake => exact Path.within_join _ (htree.isFileName_of_mem_namesIn hname)
  | deeper hlookup hname henter h ih => exact ih.trans (Path.within_join _ (htree.isFileName_of_mem_namesIn hname))

/-- On the way to a header that is found, a directory with a configuration is met at the start of a walk only. -/
theorem Finds.nested (h : Finds tree filter root isRoot directory header) (htree : tree.WellFormed) :
    ∀ {inner : Path}, inner.Within directory → header.Within inner → tree.hasConfig inner = true →
      isRoot = true ∧ inner.components.length = directory.components.length + 1 := by
  induction h with
  | @file isRoot directory location name hlookup hname htake =>
    intro inner hinner hheader hconfig
    have hlonger := hinner.longer
    have hlongest := hheader.longer
    rw [directory.components_join (htree.isFileName_of_mem_namesIn hname), List.length_append,
      List.length_singleton] at hlongest
    omega
  | @deeper isRoot directory header location name hlookup hname henter h ih =>
    intro inner hinner hheader hconfig
    have hbelow := (h.within htree).steps
    have hlength := directory.components_join (htree.isFileName_of_mem_namesIn hname)
    rcases Nat.lt_or_ge (directory.join ⟨name⟩).components.length inner.components.length with hlt | hle
    · have hwithin : inner.Within (directory.join ⟨name⟩) :=
        ⟨List.prefix_of_prefix_length_le hbelow hheader.steps hlt.le, hlt⟩
      cases (ih hwithin hheader hconfig).1
    · have hlonger := hinner.longer
      have hsame : inner.components = (directory.join ⟨name⟩).components := by
        refine (List.prefix_of_prefix_length_le hheader.steps hbelow hle).eq_of_length ?_
        rw [hlength, List.length_append, List.length_singleton] at hle ⊢
        omega
      rw [FileTree.hasConfig_congr hsame] at hconfig
      obtain ⟨-, -, -, hproject⟩ := treatment_eq_enter_iff.mp henter
      refine ⟨hproject.resolve_right fun hnone => ?_, by rw [hsame, hlength]; simp⟩
      rw [hconfig] at hnone
      cases hnone

/-- Discovery lists a header of a nested project only where the project lies right below the root. -/
theorem discoverHeaders_nestedProject (htree : tree.WellFormed) {options : ScanOptions} {headers : List Path}
    (h : discoverHeaders tree root options = .ok headers) : ∀ header ∈ headers, ∀ directory,
      InNestedProject tree root directory header → directory.components.length = root.components.length + 1 := by
  intro header hheader directory hnested
  obtain ⟨excluded, -, hfound⟩ := bind_eq_ok_iff.mp h
  cases hfound
  exact ((finds_of_mem_findHeaders hheader).nested htree hnested.nested hnested.within hnested.hasConfig).2

/-- Two nested projects, one right below the root and one below that. -/
def engineProject : FileTree :=
  ⟨[(["engine".toList], .directory),
    (["engine".toList, "modtag.toml".toList], .file (.text [])),
    (["engine".toList, "Engine.h".toList], .file (.text [])),
    (["engine".toList, "audio".toList], .directory),
    (["engine".toList, "audio".toList, ".modtag.toml".toList], .file (.text [])),
    (["engine".toList, "audio".toList, "Audio.h".toList], .file (.text []))], []⟩

/-- The header that stands in the outer one of them. -/
def engineHeader : Path := .ofString "./engine/Engine.h"

theorem exists_discoverHeaders_engineProject :
    ∃ options, discoverHeaders engineProject (.ofString ".") options = .ok [engineHeader] := by
  have hfound : ((ScanOptions.ofConfig {}).toOption.bind fun options =>
      (discoverHeaders engineProject (.ofString ".") options).toOption) = some [engineHeader] := by decide +kernel
  obtain ⟨options, -, hheaders⟩ := Option.bind_eq_some_iff.mp hfound
  exact ⟨options, eq_ok_of_toOption hheaders⟩

theorem inNestedProject_engineHeader :
    InNestedProject engineProject (.ofString ".") (.ofString "./engine") engineHeader :=
  ⟨⟨by decide +kernel, by decide +kernel⟩, by decide +kernel, ⟨by decide +kernel, by decide +kernel⟩⟩

theorem discoverHeaders_nestedProject_engineProject :
    engineProject.WellFormed ∧
      (∃ options, discoverHeaders engineProject (.ofString ".") options = .ok [engineHeader]) ∧
      InNestedProject engineProject (.ofString ".") (.ofString "./engine") engineHeader ∧
      (Path.ofString "./engine").components.length = (Path.ofString ".").components.length + 1 := by
  have hplain : engineProject.IsPlain := by decide +kernel
  obtain ⟨options, hheaders⟩ := exists_discoverHeaders_engineProject
  exact ⟨hplain.wellFormed, ⟨options, hheaders⟩, inNestedProject_engineHeader,
    discoverHeaders_nestedProject hplain.wellFormed hheaders engineHeader List.mem_cons_self _
      inNestedProject_engineHeader⟩

/-- Nested projects are not always left alone. -/
theorem nestedProject_is_scanned : ¬ ∀ tree : FileTree, tree.WellFormed → ∀ root options headers,
    discoverHeaders tree root options = .ok headers →
      ∀ header ∈ headers, ∀ directory, ¬ InNestedProject tree root directory header := by
  intro hnever
  have hplain : engineProject.IsPlain := by decide +kernel
  obtain ⟨options, hheaders⟩ := exists_discoverHeaders_engineProject
  exact hnever engineProject hplain.wellFormed _ options _ hheaders engineHeader List.mem_cons_self _
    inNestedProject_engineHeader

end TaggedHeader
