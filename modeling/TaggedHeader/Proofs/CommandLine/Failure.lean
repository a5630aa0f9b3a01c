import TaggedHeader.Proofs.CommandLine.Job
import TaggedHeader.Proofs.Conversion

/-!
# Conversions that fail

A command that converts headers settles what it works on, converts it in memory, and writes what came of it. Up to
the first write the tree is as it was. A write that fails changes no file: what it leaves behind are directories on
the way to the module interface, and the module interfaces before it stand where they were written.
-/

namespace TaggedHeader

open Text FileTree

variable {tree grown reached after : FileTree} {settings : ConversionSettings} {inputs : List Path}
  {location : Location} {file failed : ConvertedFile} {files written : List ConvertedFile}

/-! ## Writing that stops -/

/-- Writing stops at the first module interface that cannot be written. -/
theorem writeOutputs_eq_error {error : FileError} (hwrite : writeOutputs tree files = (after, some error)) :
    ∃ written failed left reached, files = written ++ failed :: left ∧ writeOutputs tree written = (reached, none) ∧
      writeOutput reached failed = (after, some error) := by
  induction files generalizing tree with
  | nil => cases hwrite
  | cons file files ih =>
    rw [writeOutputs] at hwrite
    split at hwrite
    · rename_i hfirst
      cases hwrite
      exact ⟨[], file, files, tree, rfl, rfl, hfirst⟩
    · rename_i next hfirst
      obtain ⟨written, failed, left, reached, rfl, hwritten, hfailed⟩ := ih hwrite
      exact ⟨file :: written, failed, left, reached, rfl, writeOutputs_cons_eq_ok_iff.mpr ⟨next, hfirst, hwritten⟩,
        hfailed⟩

/-- Writing module interfaces leaves all else as it was, up to directories that it makes. -/
theorem FileTree.WellFormed.extends_writeOutputs (h : tree.WellFormed)
    (hwrite : TaggedHeader.writeOutputs tree files = (grown, none)) : ∃ locations, tree.Extends grown locations := by
  induction files generalizing tree with
  | nil =>
    cases hwrite
    exact ⟨[], .refl _⟩
  | cons file files ih =>
    obtain ⟨next, hfirst, hrest⟩ := writeOutputs_cons_eq_ok_iff.mp hwrite
    obtain ⟨location, -, hextends, hnext⟩ := h.writeOutput hfirst
    obtain ⟨locations, hothers⟩ := ih hnext hrest
    exact ⟨[location] ++ locations, hextends.trans hothers⟩

/-- The directories that are there once module interfaces are written lie on the way to one of them, or were there
before. -/
theorem FileTree.IsPlain.directory_writeOutputs (h : tree.IsPlain)
    (hwrite : TaggedHeader.writeOutputs tree files = (grown, none))
    (hlocation : grown.entry? location = some .directory) :
    tree.entry? location = some .directory ∨ ∃ file ∈ files, grown.OnTheWay file.way location := by
  induction files generalizing tree with
  | nil =>
    cases hwrite
    exact .inl hlocation
  | cons file files ih =>
    obtain ⟨next, hfirst, hrest⟩ := writeOutputs_cons_eq_ok_iff.mp hwrite
    obtain ⟨place, -, hfirstExtends, hnext⟩ := h.wellFormed.writeOutput hfirst
    obtain ⟨locations, hextends⟩ := hnext.extends_writeOutputs hrest
    rcases ih (hfirstExtends.isPlain h hnext) hrest with hbefore | ⟨other, hother, hway⟩
    · refine (h.growsAlong_writeOutput hfirst location hbefore).imp_right fun hway => ?_
      exact ⟨file, List.mem_cons_self, hextends.onTheWay hway⟩
    · exact .inr ⟨other, List.mem_cons_of_mem _ hother, hway⟩

/-- A tree after some module interfaces were written and another one could not be: the former are read back as they
were generated, and what has changed elsewhere are directories, new and on the way to one of them. -/
structure WrittenUpTo (tree after : FileTree) (written : List ConvertedFile) (failed : ConvertedFile) : Prop where
  texts : ∀ file ∈ written, after.readText file.output = .ok file.text
  kept : ∀ location, (∀ file ∈ written, after.locate file.output ≠ .ok location) →
    after.entry? location = tree.entry? location ∨ tree.entry? location = none ∧
      after.entry? location = some .directory ∧ ∃ file ∈ written ++ [failed], after.OnTheWay file.way location

/-- Writing that stops leaves the module interfaces before where they were written. -/
theorem FileTree.IsPlain.writtenUpTo (h : tree.IsPlain)
    (hapart : written.Pairwise fun first second => ∀ location content,
      reached.lookup first.output = .ok (location, .file content) →
        reached.lookup second.output ≠ .ok (location, .file content))
    (hwritten : TaggedHeader.writeOutputs tree written = (reached, none)) {error : FileError}
    (hfailed : TaggedHeader.writeOutput reached failed = (after, some error)) :
    WrittenUpTo tree after written failed := by
  obtain ⟨locations, hstands⟩ := written_of_writeOutputs h.wellFormed hapart hwritten
  have hreached := hstands.extended.isPlain h hstands.wellFormed
  have hprepared := hstands.wellFormed.writeOutput_eq_error hfailed
  constructor
  · intro file hfile
    obtain ⟨location, -, hplace⟩ := hstands.stands file hfile
    exact (hplace.mono hprepared.extended List.not_mem_nil).readText
  · intro location hnot
    have hfree : location ∉ locations ++ [] := by
      rw [List.append_nil]
      intro hmem
      obtain ⟨file, hfile, hplace⟩ := hstands.occupied location hmem
      exact hnot file hfile (hprepared.extended.locate hplace.place)
    refine ((hstands.extended.trans hprepared.extended).kept location hfree).imp_right
      fun ⟨hnone, hmade⟩ => ⟨hnone, hmade, ?_⟩
    rcases hprepared.grows hreached location hmade with hbefore | hway
    · rcases h.directory_writeOutputs hwritten hbefore with hold | ⟨file, hfile, hway⟩
      · rw [hnone] at hold
        cases hold
      · exact ⟨file, List.mem_append_left _ hfile, hprepared.extended.onTheWay hway⟩
    · exact ⟨failed, by simp, hway⟩

/-! ## Commands that fail -/

namespace CommandLine

variable {path : Option Path} {target : Target} {root : Path} {report : Report}

/-- What is left of a conversion that fails: nothing has happened to the tree, or a write has failed. -/
inductive FailedConversion (tree : FileTree) (path : Option Path) (target : Target) :
    (after : FileTree) → (report : Report) → Prop
  /-- What to work on cannot be settled. -/
  | unsettled {error : ProjectError} (hjob : settle tree path target = .error error) :
    FailedConversion tree path target tree (.plain error)
  /-- The headers cannot be converted. -/
  | unconverted {job : Job} {report : Report} (hjob : settle tree path target = .ok job)
    (hfiles : convertAll tree job = .error report) : FailedConversion tree path target tree report
  /-- A module interface cannot be written. -/
  | unwritten {job : Job} {written : List ConvertedFile} {failed : ConvertedFile} {left : List ConvertedFile}
    {reached after : FileTree} {error : FileError} (hjob : settle tree path target = .ok job)
    (hfiles : convertAll tree job = .ok (written ++ failed :: left))
    (hwritten : writeOutputs tree written = (reached, none))
    (hfailed : writeOutput reached failed = (after, some error))
    (hkept : '/' ∉ job.settings.extension → WrittenUpTo tree after written failed) :
    FailedConversion tree path target after (.plain (.file error))

open Procedure

/-- Module interfaces are not saved where one cannot be written. -/
theorem writeOutputs_eq_of_saveOutputs_error {verbose : Bool} {session last : Session}
    (h : (saveOutputs root verbose files).runOn session = (.error report, last)) :
    ∃ error, writeOutputs session.tree files = (last.tree, some error) ∧ report = .plain (.file error) := by
  obtain ⟨messages, hquiet, hsave⟩ := exists_quiet_saveOutputs root verbose files
  rw [hsave] at h
  rcases runOn_bind_eq_error_iff.mp h with hchange | ⟨_, changed, -, hmessages⟩
  · exact changeTree_eq_of_error hchange
  · exact absurd hmessages hquiet.ne_error

theorem quiet_showOutputs (root : Path) (files : List ConvertedFile) : (showOutputs root files).Quiet :=
  (quiet_out _).bind fun _ => quiet_forM fun _ => (quiet_painted _ _).bind fun _ => quiet_out _

/-- A conversion fails in one of these ways. -/
theorem failedConversion_of_runConvert (htree : tree.IsPlain) {verbose dryRun : Bool} {session last : Session}
    (hsession : session.tree = tree)
    (h : (runConvert path verbose target dryRun).runOn session = (.error report, last)) :
    FailedConversion tree path target last.tree report := by
  rcases runOn_bind_eq_error_iff.mp h with hprepare | ⟨job, prepared, hprepare, h⟩
  · obtain ⟨hjob, hlast⟩ := (prepare_yields path target).eq_of_runOn hsession hprepare
    obtain ⟨error, hsettle, rfl⟩ := mapError_eq_error_iff.mp hjob
    rw [hlast]
    exact .unsettled hsettle
  obtain ⟨hjob, hprepared⟩ := (prepare_yields path target).eq_of_runOn hsession hprepare
  have hjob := mapError_eq_ok_iff.mp hjob
  by_cases hempty : job.inputs.isEmpty = true
  · rw [if_pos hempty] at h
    exact absurd h (Quiet.ne_error ((quiet_out _).bind fun _ => quiet_pure 0))
  rw [if_neg hempty] at h
  rcases runOn_bind_eq_error_iff.mp h with hconvert | ⟨files, converted, hconvert, h⟩
  · obtain ⟨hfiles, hlast⟩ := (convertJob_yields job).eq_of_runOn hprepared hconvert
    rw [hlast]
    exact .unconverted hjob hfiles
  obtain ⟨hfiles, hconverted⟩ := (convertJob_yields job).eq_of_runOn hprepared hconvert
  cases dryRun with
  | true =>
    rw [if_pos rfl] at h
    exact absurd h (Quiet.ne_error ((quiet_showOutputs _ _).bind fun _ => quiet_pure 0))
  | false =>
    rw [if_neg Bool.false_ne_true] at h
    rcases runOn_bind_eq_error_iff.mp h with hsave | ⟨_, saved, -, h⟩
    · obtain ⟨error, hwrite, rfl⟩ := writeOutputs_eq_of_saveOutputs_error hsave
      rw [hconverted] at hwrite
      obtain ⟨written, failed, left, reached, rfl, hwritten, hfailed⟩ := writeOutputs_eq_error hwrite
      refine .unwritten hjob hfiles hwritten hfailed fun hextension => htree.writtenUpTo ?_ hwritten hfailed
      have hapart := htree.apart_of_convertFiles hextension (convertAll_eq_ok_iff.mp hfiles)
        (htree.writeOutputs hwritten)
      exact (List.pairwise_append.mp hapart).1
    · exact absurd h (Quiet.ne_error (quiet_pure 0))

/-- A conversion that does not fail ends with the code of success. -/
theorem code_of_runConvert {verbose dryRun : Bool} {code : UInt32} {session last : Session}
    (h : (runConvert path verbose target dryRun).runOn session = (.ok code, last)) : code = 0 := by
  have hend : ∀ {shown : Procedure Unit} {session : Session},
      (shown >>= fun _ => (pure 0 : Procedure UInt32)).runOn session = (.ok code, last) → code = 0 := by
    intro shown session h
    obtain ⟨_, between, -, hpure⟩ := runOn_bind_eq_ok_iff.mp h
    cases hpure
    rfl
  obtain ⟨job, prepared, -, h⟩ := runOn_bind_eq_ok_iff.mp h
  split at h
  · exact hend h
  · obtain ⟨files, converted, -, h⟩ := runOn_bind_eq_ok_iff.mp h
    split at h
    · exact hend h
    · exact hend h

/-- A conversion that fails leaves the tree as it was up to the write that failed.

Arguments that are rejected make no difference to the tree. Nor does a failure to settle what there is to convert or
to convert it. Where a module interface cannot be written, those before it stand as they were generated, and all else
that is new are directories on the way to one of them. -/
theorem failed_conversion_keeps_tree {colourful : Bool} {arguments : List Text} (htree : tree.IsPlain)
    (hcode : (run colourful tree arguments).code = 2) :
    (∀ stop, Arguments.parse arguments = .error stop → (run colourful tree arguments).tree = tree) ∧
    ∀ parsed target dryRun, Arguments.parse arguments = .ok parsed →
      parsed.command = some (.convert target dryRun) →
        ∃ report, (run colourful tree arguments).failure = some report ∧
          FailedConversion tree parsed.path target (run colourful tree arguments).tree report := by
  constructor
  · intro stop hparse
    unfold run
    rw [hparse]
    cases stop <;> rfl
  · intro parsed target dryRun hparse hcommand
    obtain ⟨session, hsession, hrun⟩ := run_eq tree hparse
    rw [hrun] at hcode ⊢
    have hperform : perform parsed = runConvert parsed.path parsed.verbose target dryRun := by
      rw [perform, hcommand]
    rw [hperform] at hcode ⊢
    cases hperformed : (runConvert parsed.path parsed.verbose target dryRun).runOn session with
    | mk outcome last =>
      rw [hperformed] at hcode
      cases outcome with
      | ok code =>
        cases code_of_runConvert hperformed
        cases hcode
      | error report =>
        exact ⟨report, rfl, failedConversion_of_runConvert htree hsession hperformed⟩

/-- A conversion whose module interfaces cannot all be written fails, and leaves what the write that failed leaves. -/
theorem run_of_unwritten (colourful : Bool) {arguments : List Text} {parsed : Arguments} {job : Job} {error : FileError}
    (hparse : Arguments.parse arguments = .ok parsed) (hcommand : parsed.command = some (.convert target false))
    (hjob : settle tree parsed.path target = .ok job) (hinputs : job.inputs ≠ [])
    (hfiles : convertAll tree job = .ok files) (hwrite : writeOutputs tree files = (after, some error)) :
    (run colourful tree arguments).code = 2 ∧ (run colourful tree arguments).tree = after ∧
      (run colourful tree arguments).failure = some (.plain (.file error)) := by
  obtain ⟨session, hsession, hrun⟩ : ∃ session : Session, session.tree = tree ∧ run colourful tree arguments = _ :=
    run_eq tree hparse
  obtain ⟨prepared, hprepare, hprepared⟩ := prepare_yields parsed.path target session hsession
  rw [hjob] at hprepare
  obtain ⟨converted, hconvert, hconverted⟩ := convertJob_yields job prepared hprepared
  rw [hfiles] at hconvert
  obtain ⟨messages, -, hsave⟩ := exists_quiet_saveOutputs job.root parsed.verbose files
  have hperformed : (perform parsed).runOn session =
      (.error (.plain (.file error)), { converted with tree := after }) := by
    rw [perform, hcommand]
    refine runOn_bind_eq_error_iff.mpr (.inr ⟨job, prepared, hprepare, ?_⟩)
    rw [if_neg (by simpa using hinputs)]
    refine runOn_bind_eq_error_iff.mpr (.inr ⟨files, converted, hconvert, ?_⟩)
    rw [if_neg Bool.false_ne_true]
    refine runOn_bind_eq_error_iff.mpr (.inl ?_)
    rw [hsave]
    refine runOn_bind_eq_error_iff.mpr (.inl ?_)
    rw [runOn_changeTree, hconverted, hwrite]
    rfl
  rw [hrun, hperformed]
  exact ⟨rfl, rfl, rfl⟩

/-- Two headers, and a directory in the place of the second one's module interface. -/
def blockedProject : FileTree :=
  ⟨[(["a.h".toList], .file (.text "int a;\n".toList)), (["b.h".toList], .file (.text [])),
    (["modules".toList], .directory), (["modules".toList, "b.cppm".toList], .directory)], []⟩

/-- Arguments by which the module interfaces go there, on a way through a directory that is not there. -/
def blockedArguments : List Text := ["convert", "a.h", "b.h", "-o", "fresh/../modules"].map String.toList

/-- What they ask to convert. -/
def blockedTarget : Target := ⟨[⟨"a.h".toList⟩, ⟨"b.h".toList⟩], some ⟨"fresh/../modules".toList⟩, false⟩

/-- The project when the conversion has failed. -/
def blockedAfter : FileTree :=
  (blockedProject.setEntry ["fresh".toList] .directory).setEntry ["modules".toList, "a.cppm".toList]
    (.file (.text "int a;\n".toList))

/-- The module interfaces of its headers. -/
def blockedInterfaces : ConvertedFile × ConvertedFile :=
  (⟨⟨"a.h".toList⟩, ⟨"fresh/../modules/a.cppm".toList⟩, "int a;\n".toList, []⟩,
    ⟨⟨"b.h".toList⟩, ⟨"fresh/../modules/b.cppm".toList⟩, [], []⟩)

theorem settle_blockedProject : settle blockedProject none blockedTarget =
    .ok ⟨⟨['/']⟩, blockedTarget.inputs, ⟨⟨"fresh/../modules".toList⟩, "cppm".toList, {}⟩⟩ := by
  have hconfig : loadConfig blockedProject (projectRoot blockedProject none) = .ok none := by
    rw [loadConfig, show configPath? blockedProject (projectRoot blockedProject none) = none by decide +kernel]
  obtain ⟨options, hoptions⟩ : ∃ options, ScanOptions.ofConfig {} = .ok options := by
    have hsome : (ScanOptions.ofConfig {}).toOption.isSome = true := by decide +kernel
    exact ⟨_, eq_ok_of_toOption (Option.eq_some_of_isSome hsome)⟩
  have hnamed : ∀ input ∈ blockedTarget.inputs, namedHeaders blockedProject options input = .ok [input] := by
    intro input hinput
    have hfile : blockedProject.isDirectory input = false ∧ blockedProject.isFile input = true := by
      revert input
      decide +kernel
    rw [namedHeaders, hfile.1, hfile.2, if_neg Bool.false_ne_true, if_pos rfl]
  have hordered : blockedTarget.inputs.mergeSort Path.precedes = blockedTarget.inputs :=
    List.mergeSort_of_pairwise (by decide +kernel)
  have hfound : allNamedHeaders blockedProject options blockedTarget.inputs = .ok blockedTarget.inputs :=
    bind_eq_ok_iff.mpr ⟨[[⟨"a.h".toList⟩], [⟨"b.h".toList⟩]], mapM_eq_ok_iff.mpr
      (.cons (hnamed _ (by simp [blockedTarget])) (.cons (hnamed _ (by simp [blockedTarget])) .nil)), rfl⟩
  have hroot : projectRoot blockedProject none = ⟨['/']⟩ := by decide +kernel
  have hkept : withoutRepeats blockedTarget.inputs = blockedTarget.inputs := by decide +kernel
  refine bind_eq_ok_iff.mpr ⟨none, hconfig, bind_eq_ok_iff.mpr ⟨options, hoptions,
    bind_eq_ok_iff.mpr ⟨_, bind_eq_ok_iff.mpr ⟨_, hfound, rfl⟩, ?_⟩⟩⟩
  rw [hordered, hkept, hroot]
  rfl

theorem failed_conversion_keeps_tree_blockedProject :
    blockedProject.IsPlain ∧ (run false blockedProject blockedArguments).code = 2 ∧
      (run false blockedProject blockedArguments).tree = blockedAfter ∧
      FailedConversion blockedProject none blockedTarget blockedAfter (.plain (.file .isDirectory)) ∧
      WrittenUpTo blockedProject blockedAfter [blockedInterfaces.1] blockedInterfaces.2 := by
  have htree : blockedProject.IsPlain := by decide +kernel
  have hparse : Arguments.parse blockedArguments =
      .ok ⟨some (.convert blockedTarget false), none, false, false⟩ := eq_ok_of_toOption (by decide +kernel)
  have hfiles : convertAll blockedProject ⟨⟨['/']⟩, blockedTarget.inputs,
      ⟨⟨"fresh/../modules".toList⟩, "cppm".toList, {}⟩⟩ = .ok [blockedInterfaces.1, blockedInterfaces.2] :=
    eq_ok_of_toOption (by decide +kernel)
  have hwrite : writeOutputs blockedProject [blockedInterfaces.1, blockedInterfaces.2] =
      (blockedAfter, some .isDirectory) := by decide +kernel
  obtain ⟨hcode, hafter, hfailure⟩ :=
    run_of_unwritten false hparse rfl settle_blockedProject (List.cons_ne_nil _ _) hfiles hwrite
  obtain ⟨report, hreport, hfailed⟩ := (failed_conversion_keeps_tree htree hcode).2 _ _ _ hparse rfl
  cases hfailure.symm.trans hreport
  rw [hafter] at hfailed
  refine ⟨htree, hcode, hafter, hfailed, ?_⟩
  cases hfailed with
  | @unwritten job written failed left reached after error hjob hconverted hwritten hunwritten hkept =>
    cases settle_blockedProject.symm.trans hjob
    have hall := Except.ok.inj (hfiles.symm.trans hconverted)
    -- the first module interface can be written, so it is the second one that cannot
    match written, hall with
    | [], hall =>
      obtain ⟨rfl, -⟩ := List.cons.inj hall
      cases hwritten
      have hfirst : (writeOutput blockedProject blockedInterfaces.1).2 = none := by decide +kernel
      rw [hunwritten] at hfirst
      cases hfirst
    | [_], hall =>
      cases hall
      exact hkept (by decide)
    | _ :: _ :: _, hall => simp at hall

end CommandLine
end TaggedHeader
