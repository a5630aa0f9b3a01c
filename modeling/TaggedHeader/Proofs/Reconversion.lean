import Mathlib.Data.List.Pairwise
import TaggedHeader.Proofs.Conversion
import TaggedHeader.Proofs.Rediscovery

/-!
# Converting headers again

After a conversion was written, its headers can be converted again, all of them or some, by the same paths or by
others with the same steps. What comes of them is what was written, as long as no header was overwritten.
-/

namespace TaggedHeader

open Text FileTree

variable {tree grown : FileTree} {written : List Location} {settings : ConversionSettings} {before input : Path}
  {file : ConvertedFile} {files : List ConvertedFile} {inputs again : List Path}

/-- The module interface of a header is named after the last step of its path. -/
theorem outputPath_congr (hsame : before.sameAs input = true) {front : List Path.Component} {name : FileName}
    (hname : before.components = front ++ [.normal name]) {destination : Path} {extension : Text} :
    outputPath before destination extension = outputPath input destination extension := by
  have hname' : input.components = front ++ [.normal name] := (Path.sameAs_iff.mp hsame).symm.trans hname
  rw [outputPath, outputPath, Path.fileStem?_of_components hname, Path.fileStem?_of_components hname']
  rfl

/-- A header that was not overwritten is converted as before. -/
theorem FileTree.Extends.convertFile (h : tree.Extends grown written) (htree : tree.WellFormed)
    (hbefore : convertFile tree settings before = .ok file) (hsame : before.sameAs input = true)
    (hasks : input.asksForDirectory = false) (hnot : ∀ location ∈ written, grown.locate input ≠ .ok location) :
    TaggedHeader.convertFile grown settings input = .ok { file with input } := by
  obtain ⟨source, result, hread, hresult, rfl⟩ := convertFile_eq_ok_iff.mp hbefore
  obtain ⟨location, hlocation, hsource⟩ := readText_eq_ok_iff.mp hread
  obtain ⟨hasks', front, name, hname⟩ := htree.name_of_file hlocation hsource
  have hlocate : grown.locate input = .ok location := by
    rw [← locate_congr hsame hasks' hasks, h.locate hlocation]
  have hplace : location ∉ written := fun hmem => hnot location hmem hlocate
  have hread' := readText_eq_ok_iff.mpr ⟨location, hlocate, (h.file hplace).mpr hsource⟩
  refine convertFile_eq_ok_iff.mpr ⟨source, result, hread', hresult, ?_⟩
  rw [outputPath_congr hsame hname]

/-- A header that is still there is converted again to the file that came of it. -/
theorem Written.convertFile (h : Written tree grown files written) (htree : tree.WellFormed)
    (hconverted : inputs.mapM (TaggedHeader.convertFile tree settings) = .ok files)
    (hagain : FoundAgain grown written inputs input) (hnot : ∀ location ∈ written, grown.locate input ≠ .ok location) :
    ∃ file ∈ files, file.input.sameAs input = true ∧ '\r' ∉ file.text ∧
      TaggedHeader.convertFile grown settings input = .ok { file with input } := by
  obtain ⟨before, hbefore, hsame⟩ := hagain.known.resolve_left fun ⟨place, hplace, hlocate⟩ => hnot place hplace hlocate
  obtain ⟨file, hmem, hfirst⟩ := forall_of_mapM hconverted before hbefore
  refine ⟨file, hmem, ?_, carriageReturn_notMem_convertFile hfirst,
    h.extended.convertFile htree hfirst hsame hagain.notAsks hnot⟩
  rwa [input_eq_of_convertFile hfirst]

/-- Files that go where others go have different outputs, if the headers are different. -/
theorem outputs_apart {checked : List ConvertedFile}
    (hdistinct : files.Pairwise fun first second => first.output.sameAs second.output = false)
    (hback : ∀ result ∈ checked, ∃ file ∈ files, file.input.sameAs result.input = true ∧
      result.output = file.output)
    (hapart : checked.Pairwise fun first second => first.input.sameAs second.input = false) :
    checked.Pairwise fun first second => first.output.sameAs second.output = false := by
  have : Std.Symm fun first second : ConvertedFile => first.output.sameAs second.output = false :=
    ⟨fun first second hne => Path.sameAs_comm first.output second.output ▸ hne⟩
  refine hapart.imp_of_mem fun {first second} hfirst hsecond hne => ?_
  obtain ⟨file, hfile, hsame, houtput⟩ := hback first hfirst
  obtain ⟨other, hother, hsame', houtput'⟩ := hback second hsecond
  have hdifferent : file ≠ other := by
    rintro rfl
    rw [Path.sameAs_iff.mpr ((Path.sameAs_iff.mp hsame).symm.trans (Path.sameAs_iff.mp hsame'))] at hne
    cases hne
  rw [houtput, houtput']
  exact hdistinct.forall hfile hother hdifferent

/-- Headers that were converted and written, and not overwritten, are converted again to what was written. -/
theorem Written.convertFiles (h : Written tree grown files written) (htree : tree.WellFormed)
    (hconvert : convertFiles tree settings inputs = .ok files)
    (hapart : again.Pairwise fun first second => first.sameAs second = false)
    (hagain : ∀ input ∈ again, FoundAgain grown written inputs input)
    (hnot : ∀ input ∈ again, ∀ location ∈ written, grown.locate input ≠ .ok location) :
    ∃ checked, TaggedHeader.convertFiles grown settings again = .ok checked ∧ checkOutputs grown checked = [] := by
  obtain ⟨converted, hconverted, hcollisions⟩ := bind_eq_ok_iff.mp hconvert
  obtain ⟨rfl, hdistinct⟩ := rejectCollisions_eq_ok_iff.mp hcollisions
  have hfrom := fun input hinput => h.convertFile htree hconverted (hagain input hinput) (hnot input hinput)
  obtain ⟨checked, hchecked⟩ : ∃ checked, again.mapM (TaggedHeader.convertFile grown settings) = .ok checked := by
    refine exists_mapM fun input hinput => ?_
    obtain ⟨file, -, -, -, hconverted⟩ := hfrom input hinput
    exact ⟨_, hconverted⟩
  -- each file that is checked is one of those written, but for the spelling of its input
  have hback : ∀ result ∈ checked, ∃ file ∈ files, file.input.sameAs result.input = true ∧ '\r' ∉ file.text ∧
      result.output = file.output ∧ result.text = file.text := by
    intro result hresult
    obtain ⟨input, hinput, hconverted⟩ := exists_of_mem_mapM hchecked hresult
    obtain ⟨file, hmem, hsame, htext, hconverted'⟩ := hfrom input hinput
    cases hconverted.symm.trans hconverted'
    exact ⟨file, hmem, hsame, htext, rfl, rfl⟩
  have hinputs : checked.map ConvertedFile.input = again :=
    map_eq_of_mapM (fun _ _ => input_eq_of_convertFile) hchecked
  rw [← hinputs, List.pairwise_map] at hapart
  have houtputs := outputs_apart hdistinct (fun result hresult => by
    obtain ⟨file, hfile, hsame, -, houtput, -⟩ := hback result hresult
    exact ⟨file, hfile, hsame, houtput⟩) hapart
  refine ⟨checked, bind_eq_ok_iff.mpr ⟨checked, hchecked, rejectCollisions_eq_ok_iff.mpr ⟨rfl, houtputs⟩⟩, ?_⟩
  refine List.filterMap_eq_nil_iff.mpr fun result hresult => ?_
  obtain ⟨file, hfile, -, htext, houtput, hsame⟩ := hback result hresult
  obtain ⟨location, -, hstands⟩ := h.stands file hfile
  refine checkOutput?_eq_none (hsame ▸ htext) ?_
  rw [houtput, hsame, hstands.readText]

end TaggedHeader
