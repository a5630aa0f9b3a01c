import TaggedHeader.Proofs.CommandLine.Procedure
import TaggedHeader.Proofs.Computation
import TaggedHeader.Proofs.Path

/-!
# What a command works on, and what it comes to

`settle` is what preparing a command comes to, as a function of the tree alone: the warnings about named inputs
that do not exist make no difference. From it, a conversion that succeeds is told apart into its steps, and a check
is `checkCode`.
-/

namespace TaggedHeader.CommandLine

open Text Procedure

variable {tree : FileTree}

/-! ## Paths without repeats -/

/-- The headers that a named input stands for, none if it does not exist. -/
def namedHeaders (tree : FileTree) (options : ScanOptions) (input : Path) : Except ProjectError (List Path) :=
  if tree.isDirectory input then discoverHeaders tree input options
  else if tree.isFile input then .ok [input]
  else .ok []

/-- The headers that all named inputs stand for, in order. -/
def allNamedHeaders (tree : FileTree) (options : ScanOptions) (inputs : List Path) :
    Except ProjectError (List Path) := do
  let found ← inputs.mapM (namedHeaders tree options)
  return found.flatten

/-- The root of the project that a command works on. -/
def projectRoot (tree : FileTree) (path : Option Path) : Path :=
  path.getD (.ofComponents (.root :: tree.workingDirectory.map .normal))

/-- The headers that a command works on, as the arguments and the configuration have it. -/
def jobInputs (tree : FileTree) (root : Path) (options : ScanOptions) (inputs : List Path) :
    Except ProjectError (List Path) :=
  if inputs.isEmpty then discoverHeaders tree root options
  else do
    let found ← allNamedHeaders tree options inputs
    return withoutRepeats (found.mergeSort Path.precedes)

/-- What a command works on. -/
def settle (tree : FileTree) (path : Option Path) (target : Target) : Except ProjectError Job := do
  let root := projectRoot tree path
  let config := (← loadConfig tree root).getD {}
  let options ← ScanOptions.ofConfig config
  let inputs ← jobInputs tree root options target.inputs
  return {
    root
    inputs
    settings :=
      { destination := target.destination.getD (root.join config.outputDirectory)
        extension := config.outputExtension
        options := ⟨config.transform.disableIncludeImport || target.noImplicit⟩ } }

theorem expandInput_yields (options : ScanOptions) (input : Path) :
    (expandInput options input).Yields tree ((namedHeaders tree options input).mapError .plain) := by
  refine yields_get fun session hsession => ?_
  subst hsession
  unfold namedHeaders
  dsimp only
  by_cases hdirectory : session.tree.isDirectory input = true
  · rw [if_pos hdirectory, if_pos hdirectory]
    exact yields_ofProject _
  by_cases hfile : session.tree.isFile input = true
  · rw [if_neg hdirectory, if_neg hdirectory, if_pos hfile, if_pos hfile]
    exact yields_pure _
  · rw [if_neg hdirectory, if_neg hdirectory, if_neg hfile, if_neg hfile]
    exact (quiet_painted _ _).bind_yields fun label => (quiet_err _).bind_yields fun _ => yields_pure _

theorem expandInputs_yields (options : ScanOptions) (inputs : List Path) :
    (expandInputs options inputs).Yields tree ((allNamedHeaders tree options inputs).mapError .plain) := by
  induction inputs with
  | nil => exact yields_pure []
  | cons input inputs ih =>
    have hboth := (expandInput_yields options input).bind_project fun found =>
      ih.bind_project fun rest => yields_return (found ++ rest)
    unfold allNamedHeaders at hboth ⊢
    rw [List.mapM_cons]
    simp only [bind_assoc, pure_bind] at hboth ⊢
    exact hboth

/-- What preparing a command comes to. -/
theorem prepare_yields (path : Option Path) (target : Target) :
    (prepare path target).Yields tree ((settle tree path target).mapError .plain) := by
  refine yields_get fun session hsession => ?_
  subst hsession
  refine (yields_ofProject _).bind_project fun config => (yields_ofProject _).bind_project fun options => ?_
  dsimp only
  unfold jobInputs
  by_cases hempty : target.inputs.isEmpty = true
  · rw [if_pos hempty, if_pos hempty]
    exact (yields_ofProject _).bind_project fun inputs => yields_return _
  · rw [if_neg hempty, if_neg hempty]
    simp only [bind_assoc, pure_bind]
    exact (expandInputs_yields options target.inputs).bind_project fun found => yields_return _

/-! ## Converting what a command works on -/

variable {root : Path} {path : Option Path} {target : Target} {job : Job} {files : List ConvertedFile}

/-- The report of a header that cannot be converted is about the failure to convert it, since a header with regions
inside regions can be read again. -/
theorem error_reportOf {settings : ConversionSettings} {input : Path} {error : ProjectError}
    (h : convertFile tree settings input = .error error) : (reportOf tree root input error).error = error := by
  unfold reportOf
  split
  · cases hread : tree.readText input with
    | ok source => rfl
    | error fault =>
      rw [convertFile, hread] at h
      cases h
  · rfl

/-- Headers are converted one after another as all at once, up to what is added to the failures. -/
theorem mapError_convertEach (inputs : List Path) : (convertEach tree job inputs).mapError Report.error =
    inputs.mapM (convertFile tree job.settings) := by
  induction inputs with
  | nil => rfl
  | cons input inputs ih =>
    rw [convertEach, List.mapM_cons, ← ih]
    cases hfirst : convertFile tree job.settings input with
    | error error => exact congrArg Except.error (error_reportOf hfirst)
    | ok file => cases convertEach tree job inputs <;> rfl

/-- The headers of a job are converted as a batch, up to what is added to the failures. -/
theorem mapError_convertAll (tree : FileTree) (job : Job) :
    (convertAll tree job).mapError Report.error = convertFiles tree job.settings job.inputs := by
  rw [convertAll, convertFiles, ← mapError_convertEach]
  cases convertEach tree job job.inputs with
  | error report => rfl
  | ok files =>
    change ((rejectCollisions files).mapError Report.plain).mapError Report.error = rejectCollisions files
    cases rejectCollisions files <;> rfl

theorem convertAll_eq_ok_iff :
    convertAll tree job = .ok files ↔ convertFiles tree job.settings job.inputs = .ok files := by
  rw [← mapError_convertAll, mapError_eq_ok_iff]

theorem quiet_warnAbout (root : Path) (files : List ConvertedFile) : (warnAbout root files).Quiet :=
  quiet_forM fun _ => quiet_forM fun _ => (quiet_painted _ _).bind fun _ => quiet_err _

theorem convertJob_yields (job : Job) : (convertJob job).Yields tree (convertAll tree job) := by
  refine yields_get fun session hsession => ?_
  subst hsession
  cases convertAll session.tree job with
  | error report => exact fun session hsession => ⟨session, rfl, hsession⟩
  | ok files => exact (quiet_warnAbout _ _).bind_yields fun _ => yields_pure files

/-! ## What the commands come to -/

/-- Module interfaces are saved by writing them; then only messages follow. -/
theorem exists_quiet_saveOutputs (root : Path) (verbose : Bool) (files : List ConvertedFile) :
    ∃ messages : Procedure Unit, messages.Quiet ∧ saveOutputs root verbose files =
      (changeTree fun tree => writeOutputs tree files) >>= fun _ => messages := by
  refine ⟨_, (quiet_painted _ _).bind fun _ => (quiet_out _).bind fun _ => ?_, rfl⟩
  by_cases hverbose : verbose = true
  · rw [if_pos hverbose]
    exact quiet_forM fun _ => quiet_out _
  · rw [if_neg hverbose]
    exact quiet_pure ()

variable {colourful : Bool} {arguments : List Text} {parsed : Arguments}

/-- A run carries out its command in a session of its own. -/
theorem run_eq (tree : FileTree) (hparse : Arguments.parse arguments = .ok parsed) :
    ∃ session : Session, session.tree = tree ∧ run colourful tree arguments =
      match (perform parsed).runOn session with
      | (.ok code, after) => ⟨after.tree, code, after.stdout, after.stderr, none⟩
      | (.error report, after) => ⟨after.tree, 2, after.stdout, after.stderr, some report⟩ := by
  refine ⟨⟨tree, colourful && !parsed.noColor, "", ""⟩, rfl, ?_⟩
  rw [run, hparse]
  rfl

end TaggedHeader.CommandLine
