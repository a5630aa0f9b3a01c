import TaggedHeader.Proofs.CommandLine.Job
import TaggedHeader.Proofs.Conversion

/-!
# How a batch comes out

A batch of headers is converted in two loops: one over the headers, which stops where one cannot be converted, and
one over what came of them, which stops where an output has been met before. `BatchOutcome` says of the list of
inputs what they come to. The commands have a loop of their own and add to a failure where it happened, but the
files and the failures are the same.
-/

namespace TaggedHeader

open CommandLine

variable {tree : FileTree} {settings : ConversionSettings} {inputs : List Path} {input : Path}
  {file first second : ConvertedFile} {files earlier : List ConvertedFile}

/-! ## The collision that is reported -/

/-- The search for a collision stops at the first file with an output met before, and takes the latest of those
before it. -/
theorem findCollision?_eq_some_iff : findCollision? earlier files = some (first, second) ↔
    ∃ before after, files = before ++ second :: after ∧ findCollision? earlier before = none ∧
      (before.reverse ++ earlier).find? (·.output.sameAs second.output) = some first := by
  induction files generalizing earlier with
  | nil => simp [findCollision?]
  | cons file files ih =>
    rw [findCollision?]
    cases hfind : earlier.find? (·.output.sameAs file.output) with
    | some other =>
      constructor
      · intro h
        cases h
        exact ⟨[], files, rfl, rfl, hfind⟩
      · rintro ⟨before, after, hfiles, hnone, hfirst⟩
        cases before with
        | nil =>
          cases hfiles
          rw [List.reverse_nil, List.nil_append, hfind] at hfirst
          cases hfirst
          rfl
        | cons head before =>
          cases hfiles
          rw [findCollision?, hfind] at hnone
          cases hnone
    | none =>
      simp only [ih]
      constructor
      · rintro ⟨before, after, rfl, hnone, hfirst⟩
        refine ⟨file :: before, after, rfl, ?_, ?_⟩
        · rw [findCollision?, hfind]
          exact hnone
        · rwa [List.reverse_cons, List.append_assoc, List.singleton_append]
      · rintro ⟨before, after, hfiles, hnone, hfirst⟩
        cases before with
        | nil =>
          cases hfiles
          rw [List.reverse_nil, List.nil_append, hfind] at hfirst
          cases hfirst
        | cons head before =>
          cases hfiles
          rw [findCollision?, hfind] at hnone
          rw [List.reverse_cons, List.append_assoc, List.singleton_append] at hfirst
          exact ⟨before, after, rfl, hnone, hfirst⟩

/-- Files are rejected for the first of them with an output met before, and for the one file that it was met at. -/
theorem rejectCollisions_eq_error_iff {error : ProjectError} : rejectCollisions files = .error error ↔
    ∃ before first between second after, files = before ++ first :: between ++ second :: after ∧
      ((before ++ first :: between).Pairwise fun first second => first.output.sameAs second.output = false) ∧
      first.output.sameAs second.output = true ∧
      error = .outputCollision first.input second.input second.output := by
  have hapart : ∀ {before : List ConvertedFile}, findCollision? [] before = none ↔
      before.Pairwise fun first second => first.output.sameAs second.output = false := by
    simp [findCollision?_eq_none_iff]
  unfold rejectCollisions
  constructor
  · intro h
    split at h
    · rename_i first second hfound
      obtain ⟨front, after, rfl, hnone, hfirst⟩ := findCollision?_eq_some_iff.mp hfound
      rw [List.append_nil] at hfirst
      obtain ⟨hsame, between, before, hreverse, -⟩ := List.find?_eq_some_iff_append.mp hfirst
      obtain rfl : front = before.reverse ++ first :: between.reverse := by
        rw [← List.reverse_reverse front, hreverse]
        simp
      cases h
      exact ⟨_, first, _, second, after, rfl, hapart.mp hnone, hsame, rfl⟩
    · cases h
  · rintro ⟨before, first, between, second, after, rfl, hpairwise, hsame, rfl⟩
    -- Behind the file with the output of the second one stand files with other outputs.
    have hbetween : ∀ other ∈ between.reverse, (!other.output.sameAs second.output) = true := by
      intro other hother
      have hnot := (List.pairwise_cons.mp (List.pairwise_append.mp hpairwise).2.1).1 other (List.mem_reverse.mp hother)
      rwa [Path.sameAs, Path.sameAs_iff.mp hsame, ← Path.sameAs, Path.sameAs_comm, ← Bool.not_eq_true'] at hnot
    have hfirst : (before ++ first :: between).reverse.find? (·.output.sameAs second.output) = some first :=
      List.find?_eq_some_iff_append.mpr ⟨hsame, between.reverse, before.reverse, by simp, hbetween⟩
    have hfound : findCollision? [] (before ++ first :: between ++ second :: after) = some (first, second) :=
      findCollision?_eq_some_iff.mpr ⟨_, after, rfl, hapart.mpr hpairwise, by rwa [List.append_nil]⟩
    rw [hfound]

/-! ## Outcomes -/

/-- The path of the module interface of a header. -/
def ConversionSettings.output (settings : ConversionSettings) (input : Path) : Path :=
  outputPath input settings.destination settings.extension

/-- Whether two headers have different module interfaces. -/
def ConversionSettings.Apart (settings : ConversionSettings) (first second : Path) : Prop :=
  (settings.output first).sameAs (settings.output second) = false

/-- What a list of headers comes to. -/
inductive BatchOutcome (tree : FileTree) (settings : ConversionSettings) (inputs : List Path) :
    Except ProjectError (List ConvertedFile) → Prop
  /-- Every header can be converted, and no two have the same module interface. -/
  | converted {files : List ConvertedFile}
    (hfiles : List.Forall₂ (fun input file => convertFile tree settings input = .ok file) inputs files)
    (hapart : inputs.Pairwise settings.Apart) : BatchOutcome tree settings inputs (.ok files)
  /-- One header cannot be converted, and all before it can. -/
  | failed {before : List Path} {input : Path} {after : List Path} {error : ProjectError}
    (hinputs : inputs = before ++ input :: after)
    (hbefore : ∀ other ∈ before, ∃ file, convertFile tree settings other = .ok file)
    (herror : convertFile tree settings input = .error error) : BatchOutcome tree settings inputs (.error error)
  /-- Every header can be converted, one has the module interface of one header before it, and no two headers before
  the later of them have the same. -/
  | collided {before : List Path} {first : Path} {between : List Path} {second : Path} {after : List Path}
    (hinputs : inputs = before ++ first :: between ++ second :: after)
    (hfiles : ∀ input ∈ inputs, ∃ file, convertFile tree settings input = .ok file)
    (hapart : (before ++ first :: between).Pairwise settings.Apart)
    (hsame : (settings.output first).sameAs (settings.output second) = true)
    (hunique : ∀ other ∈ before ++ between, settings.Apart other second) :
    BatchOutcome tree settings inputs (.error (.outputCollision first second (settings.output second)))

/-- Each of the files converted has the output of its input. -/
theorem output_eq_of_mem (hall : inputs.mapM (convertFile tree settings) = .ok files) :
    ∀ file ∈ files, file.output = settings.output file.input := by
  intro file hfile
  obtain ⟨input, -, hconvert⟩ := exists_of_mem_mapM hall hfile
  obtain ⟨source, result, -, -, rfl⟩ := convertFile_eq_ok_iff.mp hconvert
  rfl

/-- Whether files have different outputs depends on their inputs. -/
theorem pairwise_apart_iff (h : ∀ file ∈ files, file.output = settings.output file.input) :
    (files.map ConvertedFile.input).Pairwise settings.Apart ↔
      files.Pairwise fun first second => first.output.sameAs second.output = false := by
  rw [List.pairwise_map]
  refine List.Pairwise.iff_of_mem fun {first second} hfirst hsecond => ?_
  rw [ConversionSettings.Apart, h first hfirst, h second hsecond]

/-- Among headers with different module interfaces, one alone has the module interface of another header. -/
theorem apart_of_pairwise {before between : List Path} {first second : Path}
    (hapart : (before ++ first :: between).Pairwise settings.Apart)
    (hsame : (settings.output first).sameAs (settings.output second) = true) :
    ∀ other ∈ before ++ between, settings.Apart other second := by
  obtain ⟨-, hbehind, hbefore⟩ := List.pairwise_append.mp hapart
  intro other hother
  rw [ConversionSettings.Apart, Path.sameAs, ← Path.sameAs_iff.mp hsame]
  rcases List.mem_append.mp hother with hmem | hmem
  · exact hbefore other hmem first List.mem_cons_self
  · rw [← Path.sameAs, Path.sameAs_comm]
    exact (List.pairwise_cons.mp hbehind).1 other hmem

/-- A batch comes out in one of these ways. -/
theorem batchOutcome_convertFiles (tree : FileTree) (settings : ConversionSettings) (inputs : List Path) :
    BatchOutcome tree settings inputs (convertFiles tree settings inputs) := by
  unfold convertFiles
  cases hall : inputs.mapM (convertFile tree settings) with
  | error error =>
    obtain ⟨before, input, after, hinputs, hbefore, herror⟩ := mapM_eq_error_iff.mp hall
    exact .failed hinputs hbefore herror
  | ok files =>
    have hinputs := map_eq_of_mapM (fun _ _ => input_eq_of_convertFile) hall
    have houtput := output_eq_of_mem hall
    change BatchOutcome tree settings inputs (rejectCollisions files)
    cases hcollisions : rejectCollisions files with
    | ok passed =>
      obtain ⟨rfl, hapart⟩ := rejectCollisions_eq_ok_iff.mp hcollisions
      exact .converted (mapM_eq_ok_iff.mp hall) (hinputs ▸ (pairwise_apart_iff houtput).mpr hapart)
    | error error =>
      obtain ⟨before, first, between, second, after, rfl, hapart, hsame, rfl⟩ :=
        rejectCollisions_eq_error_iff.mp hcollisions
      rw [← pairwise_apart_iff fun file hfile => houtput file (List.mem_append_left _ hfile)] at hapart
      rw [houtput first (by simp), houtput second (by simp)] at hsame
      rw [houtput second (by simp)]
      simp only [List.map_append, List.map_cons] at hinputs hapart
      refine .collided hinputs.symm (fun input hinput => ?_) hapart hsame (apart_of_pairwise hapart hsame)
      obtain ⟨file, -, hfile⟩ := forall_of_mapM hall input hinput
      exact ⟨file, hfile⟩

/-- What a batch can come to is what it comes to. -/
theorem BatchOutcome.eq {result : Except ProjectError (List ConvertedFile)}
    (h : BatchOutcome tree settings inputs result) : convertFiles tree settings inputs = result := by
  cases h with
  | converted hfiles hapart =>
    have hall := mapM_eq_ok_iff.mpr hfiles
    rw [← map_eq_of_mapM (fun _ _ => input_eq_of_convertFile) hall,
      pairwise_apart_iff (output_eq_of_mem hall)] at hapart
    exact bind_eq_ok_iff.mpr ⟨_, hall, rejectCollisions_eq_ok_iff.mpr ⟨rfl, hapart⟩⟩
  | failed hinputs hbefore herror =>
    exact bind_eq_error_iff.mpr (.inl (mapM_eq_error_iff.mpr ⟨_, _, _, hinputs, hbefore, herror⟩))
  | @collided before first between second after hinputs hfiles hapart hsame hunique =>
    obtain ⟨files, hall⟩ := exists_mapM hfiles
    have houtput := output_eq_of_mem hall
    rw [← map_eq_of_mapM (fun _ _ => input_eq_of_convertFile) hall] at hinputs
    obtain ⟨front, back, rfl, hfront, hback⟩ := List.map_eq_append_iff.mp hinputs
    obtain ⟨last, rest, rfl, rfl, -⟩ := List.map_eq_cons_iff.mp hback
    rw [← hfront, pairwise_apart_iff fun file hfile => houtput file (List.mem_append_left _ hfile)] at hapart
    obtain ⟨lead, others, rfl, -, hothers⟩ := List.map_eq_append_iff.mp hfront
    obtain ⟨head, middle, rfl, rfl, -⟩ := List.map_eq_cons_iff.mp hothers
    rw [← houtput head (by simp), ← houtput last (by simp)] at hsame
    rw [← houtput last (by simp)]
    refine bind_eq_error_iff.mpr (.inr ⟨_, hall, rejectCollisions_eq_error_iff.mpr ?_⟩)
    exact ⟨lead, head, middle, last, rest, rfl, hapart, hsame, rfl⟩

/-- A batch has one outcome, the same for a command.

The files are those of the inputs, in order, if every input can be converted and no two have the same module
interface. Otherwise the first input that cannot be converted decides, and if there is none, the first input with the
module interface of an input before it. A command has the same files or the same failure. -/
theorem batch_has_one_outcome (tree : FileTree) :
    (∀ (settings : ConversionSettings) (inputs : List Path) (result : Except ProjectError (List ConvertedFile)),
      convertFiles tree settings inputs = result ↔ BatchOutcome tree settings inputs result) ∧
    ∀ job : Job, (convertAll tree job).mapError Report.error = convertFiles tree job.settings job.inputs :=
  ⟨fun settings inputs _ => ⟨fun h => h ▸ batchOutcome_convertFiles tree settings inputs, BatchOutcome.eq⟩,
    mapError_convertAll tree⟩

end TaggedHeader
