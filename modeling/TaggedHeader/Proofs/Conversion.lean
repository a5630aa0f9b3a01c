import TaggedHeader.Conversion
import TaggedHeader.Proofs.FileTree.Writing
import TaggedHeader.Proofs.Newlines
import TaggedHeader.Proofs.Text.LineEndings

/-!
# Writing module interfaces

All module interfaces of a conversion go into one directory, under different names, so none of them is
written over by another one. An interface has newlines as its only line ends, so it is read back as it was
written. The induction is over the files in the order in which they are written. A write that fails leaves behind
what was prepared for it: directories on the way, and nothing else.
-/

namespace TaggedHeader

open Text FileTree

variable {tree grown : FileTree} {settings : ConversionSettings} {input : Path} {file : ConvertedFile}
  {files : List ConvertedFile}

namespace Path

/-- A stem has characters, and all of them are characters of the name. -/
theorem stemOf_subset {name : FileName} (h : name ≠ []) : stemOf name ≠ [] ∧ stemOf name ⊆ name := by
  unfold stemOf
  split
  · exact ⟨h, List.Subset.refl name⟩
  · rename_i before hbefore
    refine ⟨fun hempty => hbefore (List.reverse_eq_nil_iff.mp hempty), fun c hc => ?_⟩
    have hdropped := List.mem_of_mem_drop (List.mem_reverse.mp hc)
    exact List.mem_reverse.mp ((List.dropWhile_sublist _).subset hdropped)

/-- The stem of a path that ends in a name. -/
theorem fileStem?_of_components {path : Path} {front : List Component} {name : FileName}
    (h : path.components = front ++ [.normal name]) : path.fileStem? = some (stemOf name) := by
  rw [fileStem?, fileName?, h, List.getLast?_concat, Option.map_some]

end Path

/-- What a conversion of one header reads and comes to. -/
theorem convertFile_eq_ok_iff : convertFile tree settings input = .ok file ↔
    ∃ source result, tree.readText input = .ok source ∧
      transform settings.options (normalizeLineEndings source) = .ok result ∧
      file = ⟨input, outputPath input settings.destination settings.extension, result.text,
        result.diagnostics⟩ := by
  constructor
  · intro h
    obtain ⟨source, hsource, h⟩ := bind_eq_ok_iff.mp h
    obtain ⟨result, hresult, h⟩ := bind_eq_ok_iff.mp h
    cases h
    exact ⟨source, result, mapError_eq_ok_iff.mp hsource, mapError_eq_ok_iff.mp hresult, rfl⟩
  · rintro ⟨source, result, hsource, hresult, rfl⟩
    rw [convertFile, hsource]
    exact bind_eq_ok_iff.mpr ⟨source, rfl, bind_eq_ok_iff.mpr ⟨result, mapError_eq_ok_iff.mpr hresult, rfl⟩⟩

theorem input_eq_of_convertFile (h : convertFile tree settings input = .ok file) : file.input = input := by
  obtain ⟨source, result, -, -, rfl⟩ := convertFile_eq_ok_iff.mp h
  rfl

/-- A module interface has no carriage return. -/
theorem carriageReturn_notMem_convertFile (h : convertFile tree settings input = .ok file) :
    '\r' ∉ file.text := by
  obtain ⟨source, result, -, hresult, rfl⟩ := convertFile_eq_ok_iff.mp h
  exact carriageReturn_notMem_transform (carriageReturn_notMem_normalizeLineEndings source) hresult

/-- Whether a module interface goes into a directory, under a name without slashes. -/
def ConvertedFile.GoesInto (file : ConvertedFile) (destination : Path) : Prop :=
  ∃ name, '/' ∉ name ∧ Path.isIdle name = false ∧ file.output = destination.join ⟨name⟩

/-- The module interface of a header that can be read goes into the destination, if there is no slash in the
extension. -/
theorem goesInto_of_convertFile (hwell : tree.WellFormed) (hextension : '/' ∉ settings.extension)
    (h : convertFile tree settings input = .ok file) : file.GoesInto settings.destination := by
  obtain ⟨source, result, hread, -, rfl⟩ := convertFile_eq_ok_iff.mp h
  obtain ⟨location, hlocate, hfile⟩ := readText_eq_ok_iff.mp hread
  obtain ⟨-, front, name, hcomponents⟩ := hwell.name_of_file hlocate hfile
  have hname : IsFileName name := input.isFileName_of_mem_components (by simp [hcomponents])
  have hnonempty : name ≠ [] := fun hempty => absurd hname.notIdle (by simp [hempty, Path.isIdle])
  obtain ⟨hstem, hsubset⟩ := Path.stemOf_subset hnonempty
  refine ⟨Path.stemOf name ++ '.' :: settings.extension, ?_, ?_, ?_⟩
  · simp only [List.mem_append, List.mem_cons, not_or]
    exact ⟨fun hslash => hname.noSlash (hsubset hslash), by decide, hextension⟩
  · have hlength := List.length_pos_iff.mpr hstem
    rw [Path.isIdle, Bool.or_eq_false_iff, decide_eq_false_iff_not, decide_eq_false_iff_not]
    constructor
    all_goals
      intro heq
      have hsame := congrArg List.length heq
      simp only [List.length_append, List.length_cons, List.length_nil] at hsame
      omega
  · rw [outputPath, Path.fileStem?_of_components hcomponents, Option.getD_some]

/-- Different module interfaces in one directory have different places. -/
theorem ConvertedFile.GoesInto.output_eq {first second : ConvertedFile} {destination : Path}
    {location : Location} (h : first.GoesInto destination) (h' : second.GoesInto destination)
    (hfirst : tree.Names first.output location) (hsecond : tree.Names second.output location) :
    first.output = second.output := by
  have hlast : ∀ {file : ConvertedFile}, file.GoesInto destination → tree.Names file.output location →
      ∃ directory name, tree.Leads tree.workingDirectory destination.components directory ∧
        location = directory ++ [name] ∧ file.output = destination.join ⟨name⟩ := by
    rintro file ⟨name, hslash, hidle, houtput⟩ ⟨front, directory, last, hcomponents, -, hleads, rfl⟩
    rw [houtput, Path.components_join_part destination hslash hidle] at hcomponents
    have hparent : name ≠ ['.', '.'] := by
      rintro rfl
      have hstep : [Path.Component.parent] = [.normal last] := (List.append_inj' hcomponents rfl).2
      cases hstep
    rw [Path.stepsOf_name ⟨hidle, hparent, hslash⟩] at hcomponents
    obtain ⟨rfl, hname⟩ := List.append_inj' hcomponents rfl
    cases hname
    exact ⟨directory, name, hleads, rfl, houtput⟩
  obtain ⟨directory, name, hleads, rfl, houtput⟩ := hlast h hfirst
  obtain ⟨directory', name', hleads', hsame, houtput'⟩ := hlast h' hsecond
  obtain rfl := hleads.unique hleads'
  cases List.append_cancel_left hsame
  rw [houtput, houtput']

/-! ## Writing -/

/-- A module interface that stands where its path leads. -/
structure ConvertedFile.StandsAt (tree : FileTree) (file : ConvertedFile) (location : Location) : Prop where
  place : tree.locate file.output = .ok location
  content : tree.entry? location = some (.file (.text file.text))

namespace ConvertedFile.StandsAt

variable {location : Location} {written : List Location}

theorem lookup (h : file.StandsAt tree location) :
    tree.lookup file.output = .ok (location, .file (.text file.text)) := lookup_eq_ok_iff.mpr ⟨h.place, h.content⟩

/-- The module interface is read back as it was written. -/
theorem readText (h : file.StandsAt tree location) : tree.readText file.output = .ok file.text :=
  readText_eq_ok_iff.mpr ⟨location, h.place, h.content⟩

/-- A module interface stays where it is while others are written. -/
theorem mono (h : file.StandsAt tree location) (hextends : tree.Extends grown written)
    (hlocation : location ∉ written) : file.StandsAt grown location :=
  ⟨hextends.locate h.place, (hextends.file hlocation).mpr h.content⟩

end ConvertedFile.StandsAt

/-- The steps to the directory of a module interface. -/
def ConvertedFile.way (file : ConvertedFile) : List Path.Component :=
  match file.output.parent? with
  | some parent => parent.components
  | none => []

/-- A module interface is written to the tree in which the directories on the way to it have been made. -/
theorem writeOutput_eq (tree : FileTree) (file : ConvertedFile) : writeOutput tree file =
    match tree.makeDirectories file.way with
    | (prepared, some error) => (prepared, some error)
    | (prepared, none) => prepared.write file.output (.text file.text) := by
  unfold writeOutput ConvertedFile.way
  cases file.output.parent? with
  | none =>
    rw [makeDirectories]
    rfl
  | some parent =>
    dsimp only
    obtain ⟨prepared, _ | error⟩ := tree.makeDirectories parent.components
    · rfl
    · rfl

/-- A tree in which directories on the way to a module interface have been made, and nothing else has happened. -/
structure PreparedFor (file : ConvertedFile) (tree prepared : FileTree) : Prop where
  extended : tree.Extends prepared []
  wellFormed : prepared.WellFormed
  grows : tree.IsPlain → tree.GrowsAlong prepared file.way

/-- Before a module interface is written, the directories on the way to it are made, and writing may fail there. -/
theorem FileTree.WellFormed.prepare (h : tree.WellFormed) (file : ConvertedFile) :
    ∃ prepared, PreparedFor file tree prepared ∧
      (writeOutput tree file = prepared.write file.output (.text file.text) ∨
        ∃ error, writeOutput tree file = (prepared, some error)) := by
  have hnames : ∀ name, .normal name ∈ file.way → IsFileName name := by
    intro name hname
    unfold ConvertedFile.way at hname
    split at hname
    · rename_i parent _
      exact parent.isFileName_of_mem_components hname
    · cases hname
  obtain ⟨hextends, hgrown⟩ := h.makeDirectories hnames
  refine ⟨_, ⟨hextends, hgrown, fun hplain => hplain.growsAlong_makeDirectories hnames⟩, ?_⟩
  rw [writeOutput_eq]
  obtain ⟨prepared, _ | error⟩ := tree.makeDirectories file.way
  · exact .inl rfl
  · exact .inr ⟨error, rfl⟩

/-- A module interface that was written stands where its path leads, in a directory that was prepared for it. -/
theorem FileTree.WellFormed.exists_prepared (h : tree.WellFormed)
    (hwrite : TaggedHeader.writeOutput tree file = (grown, none)) : ∃ prepared directory name,
      PreparedFor file tree prepared ∧ prepared.locate file.output = .ok (directory ++ [name]) ∧
        prepared.entry? directory = some .directory ∧ IsFileName name ∧ prepared.TakesFile (directory ++ [name]) ∧
        grown = prepared.setEntry (directory ++ [name]) (.file (.text file.text)) := by
  obtain ⟨prepared, hprepared, heq | ⟨error, heq⟩⟩ := h.prepare file
  · obtain ⟨directory, name, hlocate, hdirectory, hname, htakes, rfl⟩ :=
      hprepared.wellFormed.write_eq_ok (heq.symm.trans hwrite)
    exact ⟨prepared, directory, name, hprepared, hlocate, hdirectory, hname, htakes, rfl⟩
  · cases heq.symm.trans hwrite

/-- Writing a module interface puts it where its path leads, and makes at most directories besides. -/
theorem FileTree.WellFormed.writeOutput (h : tree.WellFormed) (hwrite : writeOutput tree file = (grown, none)) :
    ∃ location, file.StandsAt grown location ∧ tree.Extends grown [location] ∧ grown.WellFormed := by
  obtain ⟨prepared, directory, name, hprepared, hlocate, hdirectory, hname, htakes, rfl⟩ := h.exists_prepared hwrite
  have hne : directory ++ [name] ≠ [] := List.concat_ne_nil name directory
  have hwritten := Extends.setFile hne htakes (.text file.text)
  refine ⟨directory ++ [name], ⟨hwritten.locate hlocate, ?_⟩, hprepared.extended.trans hwritten,
    hprepared.wellFormed.setEntry hdirectory hname htakes.ne_directory⟩
  rw [entry?_setEntry hne, if_pos rfl]

/-- Without links, the directories that are there once a module interface is written lie on the way to it, or were
there before. -/
theorem FileTree.IsPlain.growsAlong_writeOutput (h : tree.IsPlain)
    (hwrite : TaggedHeader.writeOutput tree file = (grown, none)) : tree.GrowsAlong grown file.way := by
  obtain ⟨prepared, directory, name, hprepared, -, -, -, htakes, rfl⟩ := h.wellFormed.exists_prepared hwrite
  have hne : directory ++ [name] ≠ [] := List.concat_ne_nil name directory
  refine (hprepared.grows h).trans List.prefix_rfl (.setFile hne htakes (.text file.text)) fun place hplace => ?_
  rw [entry?_setEntry hne] at hplace
  split at hplace
  · cases hplace
  · exact .inl hplace

/-- A write that fails leaves behind what was prepared for it. -/
theorem FileTree.WellFormed.writeOutput_eq_error (h : tree.WellFormed) {error : FileError}
    (hwrite : TaggedHeader.writeOutput tree file = (grown, some error)) : PreparedFor file tree grown := by
  obtain ⟨prepared, hprepared, heq | ⟨fault, heq⟩⟩ := h.prepare file
  · rwa [write_eq_error (heq.symm.trans hwrite)]
  · cases heq.symm.trans hwrite
    exact hprepared

/-- Module interfaces are written one after another. -/
theorem writeOutputs_cons_eq_ok_iff : writeOutputs tree (file :: files) = (grown, none) ↔
    ∃ next, writeOutput tree file = (next, none) ∧ writeOutputs next files = (grown, none) := by
  rw [writeOutputs]
  obtain ⟨next, _ | error⟩ := writeOutput tree file
  · simp
  · simp

/-- Without links there are none when module interfaces are written. -/
theorem FileTree.IsPlain.writeOutputs (h : tree.IsPlain) (hwrite : writeOutputs tree files = (grown, none)) :
    grown.IsPlain := by
  induction files generalizing tree with
  | nil =>
    cases hwrite
    exact h
  | cons file files ih =>
    obtain ⟨next, hfirst, hrest⟩ := writeOutputs_cons_eq_ok_iff.mp hwrite
    obtain ⟨location, -, hextends, hnext⟩ := h.wellFormed.writeOutput hfirst
    exact ih (hextends.isPlain h hnext) hrest

/-- Module interfaces after all of them were written to a tree: each stands where its path leads, and elsewhere
at most directories were made. -/
structure Written (tree grown : FileTree) (files : List ConvertedFile) (locations : List Location) : Prop where
  stands : ∀ file ∈ files, ∃ location ∈ locations, file.StandsAt grown location
  occupied : ∀ location ∈ locations, ∃ file ∈ files, file.StandsAt grown location
  extended : tree.Extends grown locations
  wellFormed : grown.WellFormed

/-- Writing module interfaces one after another overwrites none of them, if their paths lead to different files. -/
theorem written_of_writeOutputs (h : tree.WellFormed)
    (hapart : files.Pairwise fun first second => ∀ location content,
      grown.lookup first.output = .ok (location, .file content) →
        grown.lookup second.output ≠ .ok (location, .file content))
    (hwrite : writeOutputs tree files = (grown, none)) : ∃ locations, Written tree grown files locations := by
  induction files generalizing tree with
  | nil =>
    cases hwrite
    exact ⟨[], ⟨by simp, by simp, .refl _, h⟩⟩
  | cons file files ih =>
    obtain ⟨next, hfirst, hwrite⟩ := writeOutputs_cons_eq_ok_iff.mp hwrite
    obtain ⟨hfresh, hrest⟩ := List.pairwise_cons.mp hapart
    obtain ⟨location, hstands, hextends, hnext⟩ := h.writeOutput hfirst
    obtain ⟨locations, hrest⟩ := ih hnext hrest hwrite
    have hlocation : location ∉ locations := by
      intro hmem
      obtain ⟨other, hother, hsame⟩ := hrest.occupied location hmem
      have hplace := lookup_eq_ok_iff.mpr ⟨hrest.extended.locate hstands.place, hsame.content⟩
      exact hfresh other hother _ _ hplace hsame.lookup
    have hstands := hstands.mono hrest.extended hlocation
    refine ⟨location :: locations, ⟨?_, ?_, hextends.trans hrest.extended, hrest.wellFormed⟩⟩
    · refine List.forall_mem_cons.mpr ⟨⟨location, List.mem_cons_self, hstands⟩, fun other hother => ?_⟩
      obtain ⟨found, hfound, hother⟩ := hrest.stands other hother
      exact ⟨found, List.mem_cons_of_mem _ hfound, hother⟩
    · refine List.forall_mem_cons.mpr ⟨⟨file, List.mem_cons_self, hstands⟩, fun found hfound => ?_⟩
      obtain ⟨other, hother, hfound⟩ := hrest.occupied found hfound
      exact ⟨other, List.mem_cons_of_mem _ hother, hfound⟩

/-! ## What a conversion promises -/

/-- Files pass the search for collisions when they have no output in common with one another and with those
before them. -/
theorem findCollision?_eq_none_iff {earlier : List ConvertedFile} : findCollision? earlier files = none ↔
    (∀ file ∈ files, ∀ other ∈ earlier, other.output.sameAs file.output = false) ∧
      files.Pairwise fun first second => first.output.sameAs second.output = false := by
  induction files generalizing earlier with
  | nil => exact ⟨fun _ => ⟨by simp, .nil⟩, fun _ => rfl⟩
  | cons file files ih =>
    rw [findCollision?]
    cases hfind : earlier.find? (·.output.sameAs file.output) with
    | some first =>
      simp only [reduceCtorEq, false_iff]
      intro hnone
      have hfree := (List.forall_mem_cons.mp hnone.1).1 first (List.mem_of_find?_eq_some hfind)
      rw [List.find?_some hfind] at hfree
      cases hfree
    | none =>
      have hfile : ∀ other ∈ earlier, other.output.sameAs file.output = false := fun other hother =>
        Bool.eq_false_iff.mpr (List.find?_eq_none.mp hfind other hother)
      simp only [ih, List.forall_mem_cons, List.pairwise_cons]
      constructor
      · rintro ⟨hfresh, hrest⟩
        exact ⟨⟨hfile, fun next hnext => (hfresh next hnext).2⟩, fun next hnext => (hfresh next hnext).1, hrest⟩
      · rintro ⟨⟨-, hbefore⟩, hfresh, hrest⟩
        exact ⟨fun next hnext => ⟨hfresh next hnext, hbefore next hnext⟩, hrest⟩

/-- What passes the check for collisions has no two files with one output. -/
theorem rejectCollisions_eq_ok_iff {passed : List ConvertedFile} : rejectCollisions files = .ok passed ↔
    passed = files ∧ files.Pairwise fun first second => first.output.sameAs second.output = false := by
  have hcollision : findCollision? [] files = none ↔
      files.Pairwise fun first second => first.output.sameAs second.output = false := by
    simp [findCollision?_eq_none_iff]
  unfold rejectCollisions
  cases hfound : findCollision? [] files with
  | some pair =>
    rw [hfound] at hcollision
    simpa using fun _ => hcollision.not.mp (by simp)
  | none =>
    refine ⟨fun h => ?_, fun h => congrArg Except.ok h.1.symm⟩
    cases h
    exact ⟨rfl, hcollision.mp hfound⟩

/-- Module interfaces of one conversion go to different files, wherever their destination leads. -/
theorem FileTree.IsPlain.apart_of_convertFiles {inputs : List Path} (htree : tree.IsPlain)
    (hextension : '/' ∉ settings.extension) (hconvert : convertFiles tree settings inputs = .ok files)
    (hgrown : grown.IsPlain) : files.Pairwise fun first second => ∀ location content,
      grown.lookup first.output = .ok (location, .file content) →
        grown.lookup second.output ≠ .ok (location, .file content) := by
  obtain ⟨converted, hconverted, hcollisions⟩ := bind_eq_ok_iff.mp hconvert
  obtain ⟨rfl, hdistinct⟩ := rejectCollisions_eq_ok_iff.mp hcollisions
  have hgo : ∀ file ∈ files, file.GoesInto settings.destination := by
    intro file hfile
    obtain ⟨input, -, hinput⟩ := exists_of_mem_mapM hconverted hfile
    exact goesInto_of_convertFile htree.wellFormed hextension hinput
  refine hdistinct.imp_of_mem fun {first second} hfirst hsecond hne location content hplace hplace' => ?_
  obtain ⟨hlocate, hfile⟩ := lookup_eq_ok_iff.mp hplace
  have hnames := hgrown.names_of_file hlocate hfile
  have hnames' := hgrown.names_of_file (lookup_eq_ok_iff.mp hplace').1 hfile
  rw [(hgo first hfirst).output_eq (hgo second hsecond) hnames hnames', Path.sameAs,
    decide_eq_false_iff_not] at hne
  exact hne rfl

/-- A file is up to date when its text is what is read, if that has no carriage return. -/
theorem checkOutput?_eq_none (htext : '\r' ∉ file.text) (h : tree.readText file.output = .ok file.text) :
    checkOutput? tree file = none := by
  rw [checkOutput?, h]
  exact if_pos (congrArg some (normalizeLineEndings_eq_self htext))

/-- What was converted in memory and written is read back as it was generated and passes the check, and every
file that is none of the outputs is as it was before. -/
theorem converted_and_written {inputs : List Path} (hplain : tree.IsPlain)
    (hextension : '/' ∉ settings.extension) (hconvert : convertFiles tree settings inputs = .ok files)
    (hwrite : writeOutputs tree files = (grown, none)) :
    (∀ file ∈ files, grown.readText file.output = .ok file.text) ∧ checkOutputs grown files = [] ∧
      ∀ location content, (∀ file ∈ files, grown.locate file.output ≠ .ok location) →
        (grown.entry? location = some (.file content) ↔ tree.entry? location = some (.file content)) := by
  obtain ⟨converted, hconverted, hcollisions⟩ := bind_eq_ok_iff.mp hconvert
  obtain ⟨rfl, hdistinct⟩ := rejectCollisions_eq_ok_iff.mp hcollisions
  have hinputs : ∀ file ∈ files, ∃ input ∈ inputs, convertFile tree settings input = .ok file := fun file =>
    exists_of_mem_mapM hconverted
  have hapart := hplain.apart_of_convertFiles hextension hconvert (hplain.writeOutputs hwrite)
  obtain ⟨locations, hwritten⟩ := written_of_writeOutputs hplain.wellFormed hapart hwrite
  have hread : ∀ file ∈ files, grown.readText file.output = .ok file.text := by
    intro file hfile
    obtain ⟨location, -, hstands⟩ := hwritten.stands file hfile
    exact hstands.readText
  refine ⟨hread, List.filterMap_eq_nil_iff.mpr fun file hfile => ?_, fun location content hnot => ?_⟩
  · obtain ⟨input, -, hinput⟩ := hinputs file hfile
    exact checkOutput?_eq_none (carriageReturn_notMem_convertFile hinput) (hread file hfile)
  · refine hwritten.extended.file fun hmem => ?_
    obtain ⟨file, hfile, hstands⟩ := hwritten.occupied location hmem
    exact hnot file hfile hstands.place

/-- A directory with a header whose lines end with carriage returns too, and with a file that is no text. -/
def cameraProject : FileTree :=
  ⟨[(["include".toList], .directory),
    (["include".toList, "Camera.hpp".toList],
      .file (.text "/*[export module camera;]*/\r\nclass Camera;\r\n".toList)),
    (["include".toList, "Camera.bin".toList], .file (.binary [0xFF]))], []⟩

/-- The module interface of its header. -/
def cameraInterface : ConvertedFile :=
  ⟨⟨"include/Camera.hpp".toList⟩, ⟨"modules/Camera.cppm".toList⟩,
    "export module camera;\nclass Camera;\n".toList, []⟩

theorem converted_and_written_cameraProject : ∃ grown,
    writeOutputs cameraProject [cameraInterface] = (grown, none) ∧
      grown.readText ⟨"modules/Camera.cppm".toList⟩ = .ok cameraInterface.text ∧
      checkOutputs grown [cameraInterface] = [] ∧
      grown.entry? ["include".toList, "Camera.bin".toList] = some (.file (.binary [0xFF])) := by
  have hplain : cameraProject.IsPlain := by decide +kernel
  have hconvert : (convertFiles cameraProject ⟨⟨"modules".toList⟩, "cppm".toList, {}⟩
      [⟨"include/Camera.hpp".toList⟩]).toOption = some [cameraInterface] := by decide +kernel
  have hdone : (writeOutputs cameraProject [cameraInterface]).2 = none := by decide +kernel
  obtain ⟨grown, hwrite⟩ : ∃ grown, writeOutputs cameraProject [cameraInterface] = (grown, none) :=
    ⟨_, Prod.ext rfl hdone⟩
  obtain ⟨hread, hcheck, hothers⟩ :=
    converted_and_written hplain (by decide) (eq_ok_of_toOption hconvert) hwrite
  refine ⟨grown, hwrite, hread _ List.mem_cons_self, hcheck, (hothers _ _ fun file hfile => ?_).mpr rfl⟩
  have hgrown : grown = (writeOutputs cameraProject [cameraInterface]).1 := (congrArg Prod.fst hwrite).symm
  have hplace : (grown.locate cameraInterface.output).toOption = some ["modules".toList, "Camera.cppm".toList] := by
    rw [hgrown]
    decide +kernel
  rw [List.mem_singleton.mp hfile, eq_ok_of_toOption hplace]
  decide

end TaggedHeader
