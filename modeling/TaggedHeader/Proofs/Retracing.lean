import TaggedHeader.Proofs.FileTree.Writing
import TaggedHeader.Proofs.Path.Descent
import TaggedHeader.Proofs.Traversal

/-!
# A walk in the footsteps of another

After files were written into a project, a walk through it goes where the walk before went, with three exceptions. It
comes to directories that were made, which hold nothing but what was written. It passes over directories that have
become projects of their own. And it may reach an old directory on a way that led elsewhere before, or for the first
time because the walk before had come to it on a way that is closed now. Where the last does not happen, a search is
`Retraceable`. The two walks are compared step by step, with `Tracks` for what they have met: all that the second one
finds is new or was found before.
-/

namespace TaggedHeader

open Text FileTree

variable {tree grown : FileTree} {written : List Location} {filter : HeaderFilter} {root directory header path : Path}
  {location : Location} {name : FileName} {names : List FileName} {isRoot : Bool} {errand again : Errand}
  {walk after walk' after' : Walk} {reads : List Location} {rest : List FileName}

/-! ## What a walk can enter -/

/-- Names by which a walk from the root can enter a directory, be it that it has been there before. -/
inductive Enters (tree : FileTree) (filter : HeaderFilter) (root : Path) : List FileName → Prop
  | nil : Enters tree filter root []
  | concat {names : List FileName} {name : FileName} {location : Location} (h : Enters tree filter root names)
    (hlookup : tree.lookup (root.descend names) = .ok (location, .directory)) (hname : name ∈ tree.namesIn location)
    (henter : treatment tree filter root names.isEmpty ((root.descend names).join ⟨name⟩) name = .enter) :
    Enters tree filter root (names ++ [name])

namespace Enters

/-- A directory is entered from the one that holds it. -/
theorem concat_iff : Enters tree filter root (names ++ [name]) ↔ Enters tree filter root names ∧
    (∃ location, tree.lookup (root.descend names) = .ok (location, .directory) ∧ name ∈ tree.namesIn location) ∧
      treatment tree filter root names.isEmpty ((root.descend names).join ⟨name⟩) name = .enter := by
  refine ⟨fun h => ?_, fun ⟨h, ⟨location, hlookup, hname⟩, henter⟩ => h.concat hlookup hname henter⟩
  generalize hall : names ++ [name] = all at h
  cases h with
  | nil => exact absurd hall (List.concat_ne_nil _ _)
  | concat h hlookup hname henter =>
    obtain ⟨rfl, hlast⟩ := List.append_inj' hall rfl
    cases hlast
    exact ⟨h, ⟨_, hlookup, hname⟩, henter⟩

/-- What is on the way to a directory is entered before. -/
theorem of_isPrefix {below : List FileName} (h : Enters tree filter root below) (habove : names <+: below) :
    Enters tree filter root names := by
  induction h with
  | nil => exact List.prefix_nil.mp habove ▸ .nil
  | concat h hlookup hname henter ih =>
    rcases List.prefix_concat_iff.mp habove with rfl | hshorter
    · exact h.concat hlookup hname henter
    · exact ih hshorter

end Enters

/-- Whether an errand starts in the directory that names lead to. -/
def Errand.StartsAt (tree : FileTree) (root : Path) (names : List FileName) : Errand → Prop
  | .enter isRoot path => isRoot = names.isEmpty ∧ path = root.descend names
  | .visit isRoot directory location rest => isRoot = names.isEmpty ∧ directory = root.descend names ∧
    tree.lookup directory = .ok (location, .directory) ∧ ∀ name ∈ rest, name ∈ tree.namesIn location

/-- A walk reads only directories that it can enter. -/
theorem Traverses.enters_of_mem_reads (h : Traverses tree filter root errand walk reads after) :
    ∀ {names : List FileName}, Enters tree filter root names → errand.StartsAt tree root names → ∀ place ∈ reads,
      ∃ below, names <+: below ∧ Enters tree filter root below ∧
        tree.lookup (root.descend below) = .ok (place, .directory) := by
  induction h with
  | nowhere hnone => exact fun _ _ place hplace => absurd hplace List.not_mem_nil
  | again hlookup hvisited => exact fun _ _ place hplace => absurd hplace List.not_mem_nil
  | read hlookup hfresh h ih =>
    rintro names henters ⟨rfl, rfl⟩
    refine List.forall_mem_cons.mpr ⟨⟨names, List.prefix_rfl, henters, hlookup⟩, ?_⟩
    exact ih henters ⟨rfl, rfl, hlookup, fun _ => id⟩
  | done => exact fun _ _ place hplace => absurd hplace List.not_mem_nil
  | skip hskip h ih =>
    rintro names henters ⟨hroot, hdirectory, hlookup, hrest⟩
    exact ih henters ⟨hroot, hdirectory, hlookup, (List.forall_mem_cons.mp hrest).2⟩
  | take htake h ih =>
    rintro names henters ⟨hroot, hdirectory, hlookup, hrest⟩
    exact ih henters ⟨hroot, hdirectory, hlookup, (List.forall_mem_cons.mp hrest).2⟩
  | deeper henter hinside h ihinside ih =>
    rintro names henters ⟨rfl, rfl, hlookup, hrest⟩
    obtain ⟨hname, hrest⟩ := List.forall_mem_cons.mp hrest
    refine List.forall_mem_append.mpr ⟨fun place hplace => ?_, ih henters ⟨rfl, rfl, hlookup, hrest⟩⟩
    obtain ⟨below, hbelow, hentered⟩ := ihinside (henters.concat hlookup hname henter)
      ⟨by simp, (Path.descend_concat _ _ _).symm⟩ place hplace
    exact ⟨below, (List.prefix_append _ _).trans hbelow, hentered⟩

/-- What was found stays found. -/
theorem Traverses.headers_subset (h : Traverses tree filter root errand walk reads after) :
    walk.headers ⊆ after.headers := by
  induction h with
  | nowhere hnone => exact List.Subset.refl _
  | again hlookup hvisited => exact List.Subset.refl _
  | read hlookup hfresh h ih => exact ih
  | done => exact List.Subset.refl _
  | skip hskip h ih => exact ih
  | take htake h ih => exact fun header hheader => ih (List.mem_cons_of_mem _ hheader)
  | deeper henter hinside h ihinside ih => exact fun header hheader => ih (ihinside hheader)

/-! ## What is new -/

/-- Names in a directory come in the order in which they were made. -/
theorem FileTree.Extends.namesIn_prefix (h : tree.Extends grown written) (location : Location) :
    tree.namesIn location <+: grown.namesIn location := by
  rw [namesIn_eq, namesIn_eq]
  exact h.recorded.filterMap _

/-- The names in a directory that are new come behind the others. -/
theorem FileTree.Extends.exists_fresh (h : tree.Extends grown written) (hgrown : grown.WellFormed)
    (location : Location) : ∃ fresh, grown.namesIn location = tree.namesIn location ++ fresh ∧
      ∀ name ∈ fresh, name ∈ grown.namesIn location ∧ tree.entry? (location ++ [name]) = none := by
  obtain ⟨fresh, hfresh⟩ := h.namesIn_prefix location
  refine ⟨fresh, hfresh.symm, fun name hname => ⟨hfresh ▸ List.mem_append_right _ hname, ?_⟩⟩
  have hnodup := hgrown.nodup_namesIn location
  rw [← hfresh] at hnodup
  by_contra hsome
  obtain ⟨entry, hentry⟩ := Option.ne_none_iff_exists'.mp hsome
  have hold := mem_namesIn_iff.mpr (mem_locations hentry (List.concat_ne_nil name location))
  exact List.disjoint_of_nodup_append hnodup hold hname

/-- Whether nothing that an errand comes to was there before. -/
def Errand.IsNew (tree grown : FileTree) : Errand → Prop
  | .enter _ path => ∀ location, grown.lookup path = .ok (location, .directory) → tree.entry? location = none
  | .visit _ directory location rest => grown.lookup directory = .ok (location, .directory) ∧
    ∀ name ∈ rest, name ∈ grown.namesIn location ∧ tree.entry? (location ++ [name]) = none

theorem Errand.isNew_enter (hlookup : grown.lookup path = .ok (location, .directory))
    (hnone : tree.entry? location = none) : (Errand.enter isRoot path).IsNew tree grown := by
  intro place hplace
  cases hlookup.symm.trans hplace
  exact hnone

/-- What a new name in a directory stands for is a directory that was made or a file that was written. -/
theorem FileTree.Extends.lookup_fresh (h : tree.Extends grown written) (hgrown : grown.WellFormed)
    (hlookup : grown.lookup directory = .ok (location, .directory)) (hname : name ∈ grown.namesIn location)
    (hnone : tree.entry? (location ++ [name]) = none) :
    grown.lookup (directory.join ⟨name⟩) = .ok (location ++ [name], .directory) ∨
      grown.locate (directory.join ⟨name⟩) = .ok (location ++ [name]) ∧ location ++ [name] ∈ written := by
  obtain ⟨entry, hentry⟩ := exists_entry_of_mem_locations (mem_namesIn_iff.mp hname)
  have hlocate := fun hplace => locate_join_of_lookup hlookup (hgrown.isFileName_of_mem_namesIn hname) hplace
  by_cases hwritten : location ++ [name] ∈ written
  · obtain ⟨-, content, hfile⟩ := h.files _ hwritten
    exact .inr ⟨hlocate (.inr fun entry hentry => ⟨content, Option.some.inj (hentry.symm.trans hfile)⟩), hwritten⟩
  · rcases h.kept _ hwritten with hsame | ⟨-, hmade⟩
    · rw [hsame, hnone] at hentry
      cases hentry
    · exact .inl (lookup_eq_ok_iff.mpr ⟨hlocate (.inl hmade), hmade⟩)

/-- Where all is new a walk finds what was written, and enters what was made. -/
theorem Traverses.of_isNew (h : Traverses grown filter root errand walk reads after)
    (hextends : tree.Extends grown written) (htree : tree.WellFormed) (hgrown : grown.WellFormed) :
    errand.IsNew tree grown →
      (∀ header ∈ after.headers, (∃ place ∈ written, grown.locate header = .ok place) ∨ header ∈ walk.headers) ∧
        ∀ place ∈ after.visited, tree.entry? place ≠ none → place ∈ walk.visited := by
  induction h with
  | nowhere hnone => exact fun _ => ⟨fun _ => .inr, fun _ hplace _ => hplace⟩
  | again hlookup hvisited => exact fun _ => ⟨fun _ => .inr, fun _ hplace _ => hplace⟩
  | @read isRoot path location walk after reads hlookup hfresh h ih =>
    intro hnew
    have hnone := hnew location hlookup
    have hnames : ∀ name ∈ grown.namesIn location,
        name ∈ grown.namesIn location ∧ tree.entry? (location ++ [name]) = none := by
      intro name hname
      by_contra hsome
      obtain ⟨entry, hentry⟩ := Option.ne_none_iff_exists'.mp (not_and.mp hsome hname)
      rw [htree.above location name entry hentry] at hnone
      cases hnone
    obtain ⟨hheaders, hvisited⟩ := ih ⟨hlookup, hnames⟩
    refine ⟨hheaders, fun place hplace hsome => (List.mem_cons.mp (hvisited place hplace hsome)).resolve_left ?_⟩
    rintro rfl
    exact hsome hnone
  | done => exact fun _ => ⟨fun _ => .inr, fun _ hplace _ => hplace⟩
  | skip hskip h ih => exact fun ⟨hlookup, hrest⟩ => ih ⟨hlookup, (List.forall_mem_cons.mp hrest).2⟩
  | take htake h ih =>
    rintro ⟨hlookup, hrest⟩
    obtain ⟨⟨hname, hnone⟩, hrest⟩ := List.forall_mem_cons.mp hrest
    obtain ⟨hheaders, hvisited⟩ := ih ⟨hlookup, hrest⟩
    refine ⟨fun header hheader => (hheaders header hheader).elim .inl fun hbefore => ?_, hvisited⟩
    rcases List.mem_cons.mp hbefore with rfl | hbefore
    · rcases hextends.lookup_fresh hgrown hlookup hname hnone with hdirectory | ⟨hlocate, hwritten⟩
      · have hnot := (treatment_eq_take_iff.mp htake).2.2.1
        rw [isDirectory_iff.mpr ⟨_, hdirectory⟩] at hnot
        cases hnot
      · exact .inl ⟨_, hwritten, hlocate⟩
    · exact .inr hbefore
  | deeper henter hinside h ihinside ih =>
    rintro ⟨hlookup, hrest⟩
    obtain ⟨⟨hname, hnone⟩, hrest⟩ := List.forall_mem_cons.mp hrest
    obtain ⟨hheaders, hvisited⟩ := ih ⟨hlookup, hrest⟩
    obtain ⟨hheaders', hvisited'⟩ := ihinside fun place hplace => by
      rcases hextends.lookup_fresh hgrown hlookup hname hnone with hdirectory | ⟨hlocate, -⟩
      · cases hplace.symm.trans hdirectory
        exact hnone
      · cases (lookup_eq_ok_iff.mp hplace).1.symm.trans hlocate
        exact hnone
    exact ⟨fun header hheader => (hheaders header hheader).elim .inl (hheaders' header),
      fun place hplace hsome => hvisited' place (hvisited place hplace hsome) hsome⟩

/-- Where something is written, a directory with a configuration still has one. -/
theorem FileTree.Extends.hasConfig (h : tree.Extends grown written) (hconfig : tree.hasConfig path = true) :
    grown.hasConfig path = true := by
  obtain ⟨candidate, hcandidate, hfile⟩ := List.any_eq_true.mp hconfig
  exact List.any_eq_true.mpr ⟨candidate, hcandidate, h.isFile hfile⟩

/-- A tree after a conversion through which a walk from a root can be compared with the walk before. -/
structure Retraceable (tree grown : FileTree) (written : List Location) (filter : HeaderFilter) (root : Path) :
    Prop where
  extended : tree.Extends grown written
  old : tree.WellFormed
  new : grown.WellFormed
  /-- A directory that was there before is entered only on a way that led to it before. -/
  led : ∀ names, Enters grown filter root names → LedBefore tree grown (root.descend names)
  /-- A directory that can be entered can be entered on every way on which it could be entered before. -/
  ways : ∀ names names' location, Enters tree filter root names → Enters grown filter root names' →
    tree.lookup (root.descend names) = .ok (location, .directory) →
    grown.lookup (root.descend names') = .ok (location, .directory) → Enters grown filter root names

/-- What the second of two walks has met, as against the first. -/
structure Tracks (tree grown : FileTree) (written : List Location) (filter : HeaderFilter) (root : Path)
    (walk walk' : Walk) : Prop where
  /-- What it has found was written, or found before. -/
  headers : ∀ header ∈ walk'.headers, (∃ place ∈ written, grown.locate header = .ok place) ∨ header ∈ walk.headers
  /-- Where it has been is new, or was entered before. -/
  visited : ∀ place ∈ walk'.visited, tree.entry? place ≠ none → place ∈ walk.visited
  /-- Where it has not been, while the first walk has, it never comes. -/
  passed : ∀ place ∈ walk.visited, place ∉ walk'.visited → ∀ names, Enters grown filter root names →
    grown.lookup (root.descend names) ≠ .ok (place, .directory)

namespace Tracks

/-- The second walk takes what was written, or was taken before. -/
theorem take (h : Tracks tree grown written filter root walk walk') (header : Path) :
    Tracks tree grown written filter root { walk with headers := header :: walk.headers }
      { walk' with headers := header :: walk'.headers } := by
  refine ⟨List.forall_mem_cons.mpr ⟨.inr List.mem_cons_self, fun header hheader => ?_⟩, h.visited, h.passed⟩
  exact (h.headers header hheader).imp_right (List.mem_cons_of_mem _)

/-- The first walk alone takes something. -/
theorem take_left (h : Tracks tree grown written filter root walk walk') (header : Path) :
    Tracks tree grown written filter root { walk with headers := header :: walk.headers } walk' :=
  ⟨fun header hheader => (h.headers header hheader).imp_right (List.mem_cons_of_mem _), h.visited, h.passed⟩

/-- Both walks enter the same directory. -/
theorem visit (h : Tracks tree grown written filter root walk walk') (location : Location) :
    Tracks tree grown written filter root { walk with visited := location :: walk.visited }
      { walk' with visited := location :: walk'.visited } := by
  refine ⟨h.headers, List.forall_mem_cons.mpr ⟨fun _ => List.mem_cons_self, fun place hplace hsome =>
    List.mem_cons_of_mem _ (h.visited place hplace hsome)⟩, fun place hplace hnot => ?_⟩
  rw [List.mem_cons, not_or] at hnot
  exact h.passed place ((List.mem_cons.mp hplace).resolve_left hnot.1) hnot.2

/-- The second walk alone goes where all is new. -/
theorem new (h : Tracks tree grown written filter root walk walk')
    (htraverses : Traverses grown filter root errand walk' reads after') (hextends : tree.Extends grown written)
    (htree : tree.WellFormed) (hgrown : grown.WellFormed) (hnew : errand.IsNew tree grown) :
    Tracks tree grown written filter root walk after' := by
  obtain ⟨hheaders, hvisited⟩ := htraverses.of_isNew hextends htree hgrown hnew
  refine ⟨fun header hheader => (hheaders header hheader).elim .inl (h.headers header),
    fun place hplace hsome => h.visited place (hvisited place hplace hsome) hsome, fun place hplace hnot => ?_⟩
  refine h.passed place hplace fun hmem => hnot ?_
  rw [htraverses.visited]
  exact List.mem_append_right _ hmem

/-- The first walk alone enters a directory that is passed over now. -/
theorem pass (h : Tracks tree grown written filter root walk walk')
    (hretraceable : Retraceable tree grown written filter root)
    (htraverses : Traverses tree filter root errand walk reads after) (henters : Enters tree filter root names)
    (hstarts : errand.StartsAt tree root names) (hnot : ¬ Enters grown filter root names) :
    Tracks tree grown written filter root after walk' := by
  refine ⟨fun header hheader => (h.headers header hheader).imp_right fun hbefore => htraverses.headers_subset hbefore,
    fun place hplace hsome => ?_, fun place hplace hfresh names' henters' hlookup' => ?_⟩
  · rw [htraverses.visited]
    exact List.mem_append_right _ (h.visited place hplace hsome)
  · rw [htraverses.visited, List.mem_append, List.mem_reverse] at hplace
    rcases hplace with hread | hbefore
    · obtain ⟨below, hbelow, hentered, hlookup⟩ := htraverses.enters_of_mem_reads henters hstarts place hread
      exact hnot ((hretraceable.ways below names' place hentered henters' hlookup hlookup').of_isPrefix hbelow)
    · exact h.passed place hbefore hfresh names' henters' hlookup'

end Tracks

/-- Whether the first walk can go on an errand and has then met what the second one has. -/
def Retraced (tree grown : FileTree) (written : List Location) (filter : HeaderFilter) (root : Path) (errand : Errand)
    (walk after' : Walk) : Prop :=
  ∃ taken after, Traverses tree filter root errand walk taken after ∧ Tracks tree grown written filter root after after'

/-- The errand that an errand is for the walk before: the same directory, or those of the names in a directory that
were there. -/
inductive Counterpart (tree grown : FileTree) (root : Path) (names : List FileName) : (errand again : Errand) → Prop
  | enter {isRoot : Bool} {path : Path} (hroot : isRoot = names.isEmpty) (hpath : path = root.descend names) :
    Counterpart tree grown root names (.enter isRoot path) (.enter isRoot path)
  | visit {isRoot : Bool} {directory : Path} {location : Location} {old fresh all : List FileName}
    (hroot : isRoot = names.isEmpty) (hpath : directory = root.descend names) (hall : all = old ++ fresh)
    (hlookup : tree.lookup directory = .ok (location, .directory)) (hold : ∀ name ∈ old, name ∈ tree.namesIn location)
    (hnew : Errand.IsNew tree grown (.visit isRoot directory location fresh)) :
    Counterpart tree grown root names (.visit isRoot directory location old) (.visit isRoot directory location all)

/-- The first name that is visited is new, as are those behind it, or the counterpart visits it first too. -/
theorem Counterpart.of_cons
    (h : Counterpart tree grown root names errand (.visit isRoot directory location (name :: rest))) :
    isRoot = names.isEmpty ∧ directory = root.descend names ∧ tree.lookup directory = .ok (location, .directory) ∧
      (errand = .visit isRoot directory location [] ∧
          Errand.IsNew tree grown (.visit isRoot directory location (name :: rest)) ∨
        ∃ old, errand = .visit isRoot directory location (name :: old) ∧ name ∈ tree.namesIn location ∧
          Counterpart tree grown root names (.visit isRoot directory location old)
            (.visit isRoot directory location rest)) := by
  cases h with
  | visit hroot hpath hall hlookup hold hnew =>
    refine ⟨hroot, hpath, hlookup, ?_⟩
    obtain ⟨rfl, rfl⟩ | ⟨old, rfl, rfl⟩ := List.cons_eq_append_iff.mp hall
    · exact .inl ⟨rfl, hnew⟩
    · obtain ⟨hname, hold⟩ := List.forall_mem_cons.mp hold
      exact .inr ⟨old, rfl, hname, .visit hroot hpath rfl hlookup hold hnew⟩

namespace Retraceable

/-- What a walk does with a path to a directory that was there before is what it did, unless that has become a project
of its own. -/
theorem treatment_of_enter (h : Retraceable tree grown written filter root)
    (henter : treatment grown filter root isRoot path name = .enter) (hdirectory : tree.isDirectory path = true) :
    treatment tree filter root isRoot path name = .enter := by
  obtain ⟨hpassed, hignored, -, hproject⟩ := treatment_eq_enter_iff.mp henter
  refine treatment_eq_enter_iff.mpr ⟨hpassed, hignored, hdirectory, hproject.imp_right fun hnone => ?_⟩
  refine Bool.eq_false_iff.mpr fun hconfig => ?_
  rw [h.extended.hasConfig hconfig] at hnone
  cases hnone

/-- What a walk takes it took before, where it came to it. -/
theorem treatment_of_take (h : Retraceable tree grown written filter root)
    (htake : treatment grown filter root isRoot path name = .take) :
    treatment tree filter root isRoot path name = .take := by
  obtain ⟨hpassed, hignored, hfile, hincluded⟩ := treatment_eq_take_iff.mp htake
  refine treatment_eq_take_iff.mpr ⟨hpassed, hignored, Bool.eq_false_iff.mpr fun hdirectory => ?_, hincluded⟩
  rw [h.extended.isDirectory hdirectory] at hfile
  cases hfile

/-- A path to a directory that was made led to no directory before. -/
theorem isDirectory_of_none (h : Retraceable tree grown written filter root)
    (hlookup : grown.lookup path = .ok (location, .directory)) (hnone : tree.entry? location = none) :
    tree.isDirectory path = false := by
  refine Bool.eq_false_iff.mpr fun hdirectory => ?_
  obtain ⟨place, hplace⟩ := isDirectory_iff.mp hdirectory
  cases hlookup.symm.trans (h.extended.lookup_directory hplace)
  rw [(lookup_eq_ok_iff.mp hplace).2] at hnone
  cases hnone

/-- A directory that was there before and can be entered is found on the way on which it was found. -/
theorem lookup_of_ne_none (h : Retraceable tree grown written filter root) (henters : Enters grown filter root names)
    (hlookup : grown.lookup (root.descend names) = .ok (location, .directory)) (hsome : tree.entry? location ≠ none) :
    tree.lookup (root.descend names) = .ok (location, .directory) :=
  h.extended.lookup_directory_before (h.led names henters) hlookup hsome

/-- The first walk is done with the names that were there, and the second one goes through the new ones alone. -/
theorem retraced_fresh (hretraceable : Retraceable tree grown written filter root)
    (h : Traverses grown filter root (.visit isRoot directory location names) walk' reads after')
    (hnew : Errand.IsNew tree grown (.visit isRoot directory location names))
    (htracks : Tracks tree grown written filter root walk walk') :
    Retraced tree grown written filter root (.visit isRoot directory location []) walk after' :=
  ⟨[], walk, .done, htracks.new h hretraceable.extended hretraceable.old hretraceable.new hnew⟩

/-- Behind a name that the second walk is done with, both walks go on: the first one may have to enter a directory that
the second one never comes to. -/
theorem retraced_passed (h : Retraceable tree grown written filter root) (henters : Enters tree filter root names)
    (hlookup : tree.lookup (root.descend names) = .ok (location, .directory)) (hname : name ∈ tree.namesIn location)
    (hnot : treatment tree filter root names.isEmpty ((root.descend names).join ⟨name⟩) name = .enter →
      ¬ Enters grown filter root (names ++ [name]))
    (hwalk : walk.IsIn tree) (htracks : Tracks tree grown written filter root walk walk')
    (hrest : ∀ walk : Walk, walk.IsIn tree → Tracks tree grown written filter root walk walk' →
      Retraced tree grown written filter root (.visit names.isEmpty (root.descend names) location rest) walk after') :
    Retraced tree grown written filter root (.visit names.isEmpty (root.descend names) location (name :: rest)) walk
      after' := by
  cases htreatment : treatment tree filter root names.isEmpty ((root.descend names).join ⟨name⟩) name with
  | skip =>
    obtain ⟨taken, after, htaken, hafter⟩ := hrest walk hwalk htracks
    exact ⟨taken, after, .skip htreatment htaken, hafter⟩
  | take =>
    obtain ⟨taken, after, htaken, hafter⟩ := hrest _ (hwalk.take _) (htracks.take_left _)
    exact ⟨taken, after, .take htreatment htaken, hafter⟩
  | enter =>
    obtain ⟨reads, hinside⟩ := exists_traverses filter root false ((root.descend names).join ⟨name⟩) hwalk
      (Nat.le_add_right tree.depthBound _)
    have hpassed := htracks.pass h hinside (henters.concat hlookup hname htreatment)
      ⟨by simp, (Path.descend_concat _ _ _).symm⟩ (hnot htreatment)
    obtain ⟨taken, after, htaken, hafter⟩ := hrest _ (hwalk.traverses hinside) hpassed
    exact ⟨reads ++ taken, after, .deeper htreatment hinside htaken, hafter⟩

/-- A directory that the second walk enters by a name that was there has been made, or the first walk enters it too. -/
theorem retraced_entered (h : Retraceable tree grown written filter root) {between' : Walk}
    (henters : Enters tree filter root names) (hentered : Enters grown filter root names)
    (hlookup : tree.lookup (root.descend names) = .ok (location, .directory)) (hname : name ∈ tree.namesIn location)
    (henter : treatment grown filter root names.isEmpty ((root.descend names).join ⟨name⟩) name = .enter)
    (hinside : Traverses grown filter root (.enter false ((root.descend names).join ⟨name⟩)) walk' reads between')
    (hwalk : walk.IsIn tree) (htracks : Tracks tree grown written filter root walk walk')
    (hbelow : Enters tree filter root (names ++ [name]) → Enters grown filter root (names ++ [name]) →
      Retraced tree grown written filter root (.enter false ((root.descend names).join ⟨name⟩)) walk between')
    (hrest : ∀ walk : Walk, walk.IsIn tree → Tracks tree grown written filter root walk between' →
      Retraced tree grown written filter root (.visit names.isEmpty (root.descend names) location rest) walk after') :
    Retraced tree grown written filter root (.visit names.isEmpty (root.descend names) location (name :: rest)) walk
      after' := by
  have hentered' := hentered.concat (h.extended.lookup_directory hlookup)
    ((h.extended.namesIn_prefix _).subset hname) henter
  obtain ⟨place, hplace⟩ := isDirectory_iff.mp (treatment_eq_enter_iff.mp henter).2.2.1
  by_cases hnone : tree.entry? place = none
  · have hbetween := htracks.new hinside h.extended h.old h.new (Errand.isNew_enter hplace hnone)
    refine h.retraced_passed henters hlookup hname (fun htreatment => ?_) hwalk hbetween hrest
    have hdirectory := (treatment_eq_enter_iff.mp htreatment).2.2.1
    rw [h.isDirectory_of_none hplace hnone] at hdirectory
    cases hdirectory
  · have hplace' := h.lookup_of_ne_none hentered' (Path.descend_concat _ _ _ ▸ hplace) hnone
    rw [Path.descend_concat] at hplace'
    have htreatment := h.treatment_of_enter henter (isDirectory_iff.mpr ⟨place, hplace'⟩)
    obtain ⟨taken, between, htaken, hbetween⟩ := hbelow (henters.concat hlookup hname htreatment) hentered'
    obtain ⟨more, after, hmore, hafter⟩ := hrest between (hwalk.traverses htaken) hbetween
    exact ⟨taken ++ more, after, .deeper htreatment htaken hmore, hafter⟩

/-- Every errand of the second walk has a counterpart that the first walk can go on. -/
theorem retraced (hretraceable : Retraceable tree grown written filter root)
    (h : Traverses grown filter root again walk' reads after') : ∀ {names : List FileName} {errand : Errand}
      {walk : Walk}, Enters tree filter root names → Enters grown filter root names →
        Counterpart tree grown root names errand again → walk.IsIn tree →
        Tracks tree grown written filter root walk walk' →
        Retraced tree grown written filter root errand walk after' := by
  have hextends := hretraceable.extended
  -- along the second walk: the names of a directory that were there come first, so the first walk is done with
  -- them before the second one gets to those that are new
  induction h with
  | nowhere hnone =>
    rintro names errand walk henters hentered (⟨rfl, rfl⟩ | _) hwalk htracks
    refine ⟨[], walk, .nowhere (Bool.eq_false_iff.mpr fun hdirectory => ?_), htracks⟩
    rw [hextends.isDirectory hdirectory] at hnone
    cases hnone
  | @again isRoot path location walk' hlookup hvisited =>
    rintro names errand walk henters hentered (⟨rfl, rfl⟩ | _) hwalk htracks
    by_cases hnone : tree.entry? location = none
    · exact ⟨[], walk, .nowhere (hretraceable.isDirectory_of_none hlookup hnone), htracks⟩
    · have hlookup := hretraceable.lookup_of_ne_none hentered hlookup hnone
      exact ⟨[], walk, .again hlookup (htracks.visited location hvisited hnone), htracks⟩
  | @read isRoot path location walk' after' reads hlookup hfresh h ih =>
    rintro names errand walk henters hentered (⟨rfl, rfl⟩ | _) hwalk htracks
    by_cases hnone : tree.entry? location = none
    · exact ⟨[], walk, .nowhere (hretraceable.isDirectory_of_none hlookup hnone), htracks.new (.read hlookup hfresh h)
        hextends hretraceable.old hretraceable.new (Errand.isNew_enter hlookup hnone)⟩
    · have hlookup' := hretraceable.lookup_of_ne_none hentered hlookup hnone
      have hfresh' : location ∉ walk.visited := fun hmem => htracks.passed location hmem hfresh names hentered hlookup
      obtain ⟨fresh, hall, hnew⟩ := hextends.exists_fresh hretraceable.new location
      obtain ⟨taken, after, htaken, hafter⟩ := ih henters hentered
        (.visit rfl rfl hall hlookup' (fun _ => id) ⟨hlookup, hnew⟩) (hwalk.cons hlookup' hfresh')
        (htracks.visit location)
      exact ⟨location :: taken, after, .read hlookup' hfresh' htaken, hafter⟩
  | done =>
    rintro names errand walk henters hentered (_ | ⟨rfl, rfl, hall, hlookup, hold, hnew⟩) hwalk htracks
    obtain ⟨rfl, rfl⟩ := List.append_eq_nil_iff.mp hall.symm
    exact ⟨[], walk, .done, htracks⟩
  | skip hskip h ih =>
    intro names errand walk henters hentered hcounterpart hwalk htracks
    obtain ⟨rfl, rfl, hlookup, ⟨rfl, hnew⟩ | ⟨old, rfl, hname, hrest⟩⟩ := hcounterpart.of_cons
    · exact hretraceable.retraced_fresh (.skip hskip h) hnew htracks
    · refine hretraceable.retraced_passed henters hlookup hname (fun _ henters' => ?_) hwalk htracks
        fun walk => ih henters hentered hrest
      cases hskip.symm.trans (Enters.concat_iff.mp henters').2.2
  | take htake h ih =>
    intro names errand walk henters hentered hcounterpart hwalk htracks
    obtain ⟨rfl, rfl, hlookup, ⟨rfl, hnew⟩ | ⟨old, rfl, hname, hrest⟩⟩ := hcounterpart.of_cons
    · exact hretraceable.retraced_fresh (.take htake h) hnew htracks
    · obtain ⟨taken, after, htaken, hafter⟩ := ih henters hentered hrest (hwalk.take _) (htracks.take _)
      exact ⟨taken, after, .take (hretraceable.treatment_of_take htake) htaken, hafter⟩
  | deeper henter hinside h ihinside ih =>
    intro names errand walk henters hentered hcounterpart hwalk htracks
    obtain ⟨rfl, rfl, hlookup, ⟨rfl, hnew⟩ | ⟨old, rfl, hname, hrest⟩⟩ := hcounterpart.of_cons
    · exact hretraceable.retraced_fresh (.deeper henter hinside h) hnew htracks
    · exact hretraceable.retraced_entered henters hentered hlookup hname henter hinside hwalk htracks
        (fun henters' hentered' => ihinside henters' hentered'
          (.enter (by simp) (Path.descend_concat _ _ _).symm) hwalk htracks)
        fun walk => ih henters hentered hrest

end Retraceable

/-! ## Without links -/

/-- Without links, names lead from where a walk starts to what is below it under these names. -/
theorem Enters.lookup_root (h : Enters tree filter root names) (htree : tree.IsPlain)
    (hlookup : tree.lookup (root.descend names) = .ok (location, .directory)) :
    ∃ place, tree.lookup root = .ok (place, .directory) ∧ location = place ++ names := by
  induction h generalizing location with
  | nil => exact ⟨location, hlookup, (List.append_nil location).symm⟩
  | @concat names name above h habove hname henter ih =>
    obtain ⟨place, hplace, rfl⟩ := ih habove
    rw [Path.descend_concat, htree.lookup_of_enter habove hname henter] at hlookup
    cases hlookup
    exact ⟨place, hplace, List.append_assoc place names [name]⟩

/-- Without links, a walk is retraceable as soon as the path where it starts leads to nothing old unless it did so
before. -/
theorem FileTree.IsPlain.retraceable (h : tree.IsPlain) (hgrown : grown.IsPlain) (hextends : tree.Extends grown written)
    (hroot : LedBefore tree grown root) : Retraceable tree grown written filter root := by
  refine ⟨hextends, h.wellFormed, hgrown.wellFormed, fun names henters => ?_,
    fun names names' location henters henters' hlookup hlookup' => ?_⟩
  · induction henters with
    | nil => exact hroot
    | @concat names name above henters habove hname henter ih =>
      rw [Path.descend_concat]
      intro location hsome hlocate
      cases hlocate.symm.trans (lookup_eq_ok_iff.mp (hgrown.lookup_of_enter habove hname henter)).1
      obtain ⟨entry, hentry⟩ := Option.ne_none_iff_exists'.mp hsome
      have hdirectory := h.wellFormed.above above name entry hentry
      have hbefore := ih above (by simp [hdirectory]) (lookup_eq_ok_iff.mp habove).1
      exact h.locate_join (lookup_eq_ok_iff.mpr ⟨hbefore, hdirectory⟩)
        (hgrown.wellFormed.isFileName_of_mem_namesIn hname)
  · obtain ⟨place, hplace, rfl⟩ := henters.lookup_root h hlookup
    obtain ⟨place', hplace', hsame⟩ := henters'.lookup_root hgrown hlookup'
    cases hplace'.symm.trans (hextends.lookup_directory hplace)
    obtain rfl := List.append_cancel_left hsame
    exact henters'

end TaggedHeader
