import TaggedHeader.Proofs.Draft.Settling

/-!
# The interface of a header as one substitution

Eight passes turn a header into an interface: two for the regions, six for the tags. Each makes a chain of
edits, and each edit moves all that is recorded about the text. The result is nevertheless that of a single
sweep over the header, with every substitution read off the header itself.
-/

namespace TaggedHeader

open Text Substitution

/-- Whether the interface has other text in the place of a tag. -/
def isRewritten (options : TransformOptions) (regions : List Region) (tags : List Tag) (tag : Tag) : Bool :=
  !inSomeRegion regions tag.span &&
    match tag.directive with
    | .exportDeclaration | .exportModule _ | .exportImport _ | .importTarget _ => true
    | .includeHeader _ => !options.disableIncludeImport
    | .moduleFragment _ =>
      (outsideTags regions tags).find? (Pass.moduleFragment.accepts ·.directive) == some tag
    | .excludeBegin | .excludeEnd | .ignoreBegin | .ignoreEnd | .literal | .unknown => false

/-- All that the interface of a header does not take over from it. -/
def interfaceSubstitutions (options : TransformOptions) (text : Text) (regions : List Region)
    (tags : List Tag) : List Substitution :=
  settlements text regions (tags.filter (isRewritten options regions tags)) ++ cuts regions

variable {keepIncludes : Bool} {regions : List Region} {tags : List Tag} {tag : Tag}

/-- A pass that settles all tags of its kind settles those outside the regions. -/
theorem mem_settledTags_of_all (pass : Pass) (hall : pass.multiplicity = .all) :
    tag ∈ pass.settledTags keepIncludes regions tags ↔
      tag ∈ tags ∧ pass.handles keepIncludes tag.directive = true ∧ inSomeRegion regions tag.span = false := by
  rw [Pass.settledTags, hall, Multiplicity.chosen, Pass.openTags, outsideTags, List.mem_filter,
    List.mem_filter, Bool.not_eq_true', and_assoc]

/-- A pass that settles one tag settles the first outside the regions. -/
theorem mem_settledTags_of_first (pass : Pass) (hfirst : pass.multiplicity = .first) :
    tag ∈ pass.settledTags keepIncludes regions tags ↔
      (outsideTags regions tags).find? (pass.handles keepIncludes ·.directive) = some tag := by
  have hswap : pass.openTags keepIncludes regions tags =
      (outsideTags regions tags).filter (pass.handles keepIncludes ·.directive) := by
    rw [Pass.openTags, outsideTags, outsideTags, List.filter_comm]
  rw [Pass.settledTags, hfirst, hswap, ← List.head?_filter, Multiplicity.chosen]
  cases (outsideTags regions tags).filter (pass.handles keepIncludes ·.directive) with
  | nil => simp
  | cons first rest => simp [eq_comm]

/-- The passes over the tags settle what the interface rewrites. -/
theorem mem_settledTags_iff (options : TransformOptions) :
    (tag ∈ tagPasses.flatMap fun pass => pass.settledTags options.disableIncludeImport regions tags) ↔
      tag ∈ tags ∧ isRewritten options regions tags tag = true := by
  have hfirst : (outsideTags regions tags).find? (Pass.moduleFragment.accepts ·.directive) = some tag →
      tag ∈ tags ∧ inSomeRegion regions tag.span = false ∧
        Pass.moduleFragment.accepts tag.directive = true := fun hfind => by
    have hmem := List.mem_filter.mp (List.mem_of_find?_eq_some hfind)
    have haccepts := List.find?_some hfind
    exact ⟨hmem.1, (Bool.not_eq_true' _).mp hmem.2, haccepts⟩
  have hhandles : ∀ directive, Pass.moduleFragment.handles options.disableIncludeImport directive =
      Pass.moduleFragment.accepts directive := fun directive => by
    simp [Pass.handles]
  simp only [tagPasses, List.flatMap_cons, List.flatMap_nil, List.append_nil, List.mem_append]
  rw [mem_settledTags_of_first .moduleFragment rfl, mem_settledTags_of_all .exportDeclaration rfl,
    mem_settledTags_of_all .exportModule rfl, mem_settledTags_of_all .exportImport rfl,
    mem_settledTags_of_all .importTarget rfl, mem_settledTags_of_all .includeImport rfl]
  simp only [hhandles]
  unfold isRewritten
  generalize (outsideTags regions tags).find? (Pass.moduleFragment.accepts ·.directive) = first at hfirst ⊢
  by_cases hfound : first = some tag
  · obtain ⟨htag, houtside, haccepts⟩ := hfirst hfound
    cases hdirective : tag.directive with
    | moduleFragment fragment => simp [hfound, htag, houtside]
    | _ =>
      rw [hdirective] at haccepts
      cases haccepts
  · simp only [hfound, false_or]
    cases tag.directive with
    | moduleFragment fragment => simp [hfound, Pass.handles, Pass.accepts]
    | includeHeader header => simp [Pass.handles, Pass.accepts, and_comm]
    | exportDeclaration | exportModule | exportImport | importTarget =>
      simp [Pass.handles, Pass.accepts]
    | excludeBegin | excludeEnd | ignoreBegin | ignoreEnd | literal | unknown =>
      simp [Pass.handles, Pass.accepts]

/-- The eight passes before the prompt are one simultaneous substitution.

For every header whose regions can be found, the passes succeed, and the text that they leave is that of one
sweep over the header: the spans of removed regions and the markers of protected ones go, tags outside the
regions give way to their interface, and everything else is copied. The substitutions lie between
characters, share no byte with each other, and leave the content of protected regions alone. -/
theorem passes_eq_sweep (options : TransformOptions) (text : Text) {scan : RegionScan}
    (h : scanRegions text (scanTags text) = .ok scan) :
    ∃ draft reports, (Draft.ofScan text (scanTags text) scan).runAll options.disableIncludeImport
        (.ofText text) (Pass.order.take 8) = .ok (draft, reports) ∧
      draft.source.current =
        sweep (interfaceSubstitutions options text scan.regions (scanTags text)) 0 text ∧
      (∀ sub ∈ interfaceSubstitutions options text scan.regions (scanTags text), sub.FitsIn text) ∧
      ((interfaceSubstitutions options text scan.regions (scanTags text)).Pairwise
        fun first second => first.span.Apart second.span) ∧
      ∀ region ∈ scan.regions, region.kind.isProtected = true →
        Spare (interfaceSubstitutions options text scan.regions (scanTags text)) region.interior := by
  obtain ⟨draft, hrun, hsettles, -⟩ := Draft.exists_runAll h tagPasses (by decide) (by decide)
    options.disableIncludeImport (.ofText text)
  have hsame : (tagPasses.flatMap fun pass =>
      pass.settledTags options.disableIncludeImport scan.regions (scanTags text)).reverse.Perm
      ((scanTags text).filter (isRewritten options scan.regions (scanTags text))) := by
    refine (List.perm_ext_iff_of_nodup hsettles.nodup ((Layout.ofScan h).tags_nodup.filter _)).mpr fun tag => ?_
    rw [List.mem_reverse, mem_settledTags_iff]
    exact List.mem_filter.symm
  have hperm : ((Layout.ofScan h).substitutions _).Perm
      (interfaceSubstitutions options text scan.regions (scanTags text)) :=
    (hsame.filterMap _).append_right _
  have hsweeps := hsettles.sweeps.perm hperm
  exact ⟨draft, _, hrun, hsweeps.current, hsweeps.fitsIn, hsweeps.apart, hsweeps.spare⟩

/-- A header with a removed region, a tag right behind it, and a protected region that holds a tag. -/
def mixedHeader : Text :=
  "/*[module]*/ /*[export]*//*[exclude begin]*/x/*[exclude end]*/y/*[[/*[export]]*/".toList

/-- The regions of that header. -/
def mixedScan : RegionScan :=
  ⟨[⟨.removed, ⟨25, 62⟩, ⟨44, 45⟩⟩, ⟨.literal, ⟨63, 80⟩, ⟨67, 76⟩⟩], []⟩

theorem passes_eq_sweep_mixedHeader : ∃ draft reports,
    scanRegions mixedHeader (scanTags mixedHeader) = .ok mixedScan ∧
    (Draft.ofScan mixedHeader (scanTags mixedHeader) mixedScan).runAll false (.ofText mixedHeader)
      (Pass.order.take 8) = .ok (draft, reports) ∧
    draft.source.current = "module; export y/*[export".toList := by
  have hscan : scanRegions mixedHeader (scanTags mixedHeader) = .ok mixedScan :=
    eq_ok_of_toOption (by decide +kernel)
  obtain ⟨draft, reports, hrun, hcurrent, -⟩ := passes_eq_sweep {} mixedHeader hscan
  exact ⟨draft, reports, hscan, hrun, hcurrent.trans (by decide +kernel)⟩

end TaggedHeader
