import TaggedHeader.Proofs.Draft.Settling

/-!
# The order of the passes over the tags

The six passes over the tags may run in any order. No two of them settle the same tag, so each order settles
the same tags and leaves the text of the same sweep, with the same reports. The one thing that an order
decides is where an empty range of a region comes to rest when tags of several passes adjoin it.

Two orders are not compared with each other: each is compared with the list of tags that it settles, and
`flatMap_eq_of_perm` says what is the same in these lists.
-/

namespace TaggedHeader

open Text Substitution

/-- In a list of lists of which one at most is not empty, the order does not matter. -/
theorem flatMap_eq_of_perm {α β : Type} {f : α → List β} {list list' : List α}
    (hunique : ∀ first second, f first ≠ [] → f second ≠ [] → first = second) (hperm : list.Perm list') :
    list.flatMap f = list'.flatMap f := by
  induction hperm with
  | nil => rfl
  | cons first _ ih => rw [List.flatMap_cons, List.flatMap_cons, ih]
  | swap first second rest =>
    simp only [List.flatMap_cons, ← List.append_assoc]
    by_cases hfirst : f first = []
    · rw [hfirst, List.append_nil, List.nil_append]
    · by_cases hsecond : f second = []
      · rw [hsecond, List.append_nil, List.nil_append]
      · rw [hunique first second hfirst hsecond]
  | trans _ _ ih ih' => exact ih.trans ih'

namespace Pass

variable {keepIncludes : Bool} {regions : List Region} {tags : List Tag} {passes passes' : List Pass}

/-- What one pass accepts of the tags that several passes settle does not depend on their order. -/
theorem filter_settledTags_of_perm (pass : Pass) (hperm : passes.Perm passes') :
    (passes.flatMap fun pass => pass.settledTags keepIncludes regions tags).filter (pass.accepts ·.directive) =
      (passes'.flatMap fun pass => pass.settledTags keepIncludes regions tags).filter
        (pass.accepts ·.directive) := by
  rw [List.filter_flatMap, List.filter_flatMap]
  refine flatMap_eq_of_perm (fun first second hfirst hsecond => ?_) hperm
  have hself : ∀ other : Pass,
      (other.settledTags keepIncludes regions tags).filter (pass.accepts ·.directive) ≠ [] → other = pass := by
    intro other hother
    obtain ⟨tag, htag⟩ := List.exists_mem_of_ne_nil _ hother
    obtain ⟨hmem, haccepts⟩ := List.mem_filter.mp htag
    exact Pass.eq_of_accepts (Draft.accepts_of_mem_settledTags hmem) haccepts
  rw [hself first hfirst, hself second hsecond]

/-- The tags that are too many do not depend on the order of the passes. -/
theorem surplusTags_of_perm (hperm : passes.Perm passes') :
    passes.flatMap (fun pass => pass.surplusTags keepIncludes regions tags) =
      passes'.flatMap fun pass => pass.surplusTags keepIncludes regions tags := by
  refine flatMap_eq_of_perm (fun first second hfirst hsecond => ?_) hperm
  have hfragment : ∀ pass : Pass, pass.surplusTags keepIncludes regions tags ≠ [] →
      pass = .moduleFragment := by
    intro pass hpass
    cases pass with
    | moduleFragment => rfl
    | metatagPrompt => simp [surplusTags, openTags, outsideTags, handles, accepts, multiplicity,
        Multiplicity.surplus] at hpass
    | _ => exact absurd rfl hpass
  rw [hfragment first hfirst, hfragment second hsecond]

end Pass

/-- A region with nothing left in it. -/
structure Region.IsSpent (region : Region) : Prop where
  whole : region.span = region.interior
  empty : region.interior.start = region.interior.stop

/-- Whether the order of the passes leaves a region alone when they settle some tags: it has content, or one
pass settles all the tags that adjoin it. -/
def Region.IsUndisputed (tags : List Tag) (region : Region) : Prop :=
  region.interior.start < region.interior.stop ∨
    ∃ pass : Pass, ∀ tag, Adjoins tags region.interior.start tag → pass.accepts tag.directive = true

/-- The tags pending in a draft that a later draft has settled. -/
def Draft.settledSince (earlier later : Draft) : List Tag :=
  earlier.tags.filter fun tag => later.tags.all (·.origin != tag.origin)

namespace Layout

/-- The tags that passes settle one after another, the latest first. -/
def settledBy (layout : Layout) (keepIncludes : Bool) (passes : List Pass) : List Tag :=
  (passes.flatMap fun pass => pass.settledTags keepIncludes layout.regions layout.tags).reverse

/-- How a region that was empty when the regions were gone stands when tags are settled, the latest first: empty,
at the place that its landing has come to. The landing is where it was or behind one of the adjoining tags, all
of them with nothing between them. -/
structure StandsBehind (layout : Layout) (settled adjoining : List Tag) (region current : Region) : Prop where
  spent : current.IsSpent
  lands : ∃ position, layout.IsFree position ∧
    place (cuts layout.regions) layout.text position =
      landing (settled.map (Tag.placed (cuts layout.regions) layout.text)) region.interior.start ∧
    current.interior = placeSpan (layout.substitutions settled) layout.text ⟨position, position⟩
  behind : landing (settled.map (Tag.placed (cuts layout.regions) layout.text)) region.interior.start =
      region.interior.start ∨
    ∃ tag, Adjoins adjoining region.interior.start tag ∧
      landing (settled.map (Tag.placed (cuts layout.regions) layout.text)) region.interior.start = tag.span.stop

end Layout

namespace Draft

variable {layout : Layout} {settled settled' : List Tag} {start draft : Draft}

/-- A settled tag was pending and is no longer. -/
theorem Settles.mem_settledSince (hstart : start.Settles layout []) (h : draft.Settles layout settled)
    (hinterface : ∀ tag ∈ settled, ∃ interface, tag.interface? layout.text layout.regions = some interface)
    {tag : Tag} (hmoved : tag ∈ settled.map (Tag.placed (cuts layout.regions) layout.text)) :
    tag ∈ start.settledSince draft := by
  obtain ⟨tag, htag, rfl⟩ := List.mem_map.mp hmoved
  obtain ⟨hmem, houtside⟩ := h.outside tag htag
  rw [settledSince, List.mem_filter, hstart.sweeps.tags]
  constructor
  · refine List.mem_map.mpr ⟨tag, List.mem_filter.mpr ⟨hmem, ?_⟩, rfl⟩
    exact decide_eq_true (layout.spare_cuts_of_outside hmem houtside)
  · rw [h.sweeps.tags, List.all_eq_true]
    intro pending hpending
    obtain ⟨other, hother, rfl⟩ := List.mem_map.mp hpending
    obtain ⟨hother, hspare⟩ := List.mem_filter.mp hother
    rw [bne_iff_ne]
    intro horigin
    obtain rfl := layout.eq_of_origin hother hmem horigin
    obtain ⟨interface, hinterface⟩ := hinterface other htag
    have hsub : ⟨other.span, interface⟩ ∈ layout.substitutions settled :=
      List.mem_append_left _ (mem_settlements.mpr ⟨other, htag, interface, hinterface, rfl⟩)
    have hapart := of_decide_eq_true hspare _ hsub
    have hlt := (layout.tagsIn.standsIn other hmem).start_lt_stop
    simp only [Span.Apart] at hapart
    omega

/-- An undisputed empty range lands at the same place in every order. -/
theorem landing_eq_of_undisputed {tags moved moved' : List Tag} {region : Region}
    (hmoved : ∀ tag ∈ moved, tag ∈ tags) (hmoved' : ∀ tag ∈ moved', tag ∈ tags)
    (hfilter : ∀ pass : Pass, moved.filter (pass.accepts ·.directive) =
      moved'.filter (pass.accepts ·.directive))
    (hempty : region.interior.start = region.interior.stop) (hsame : region.IsUndisputed tags) :
    landing moved region.interior.start = landing moved' region.interior.start := by
  rcases hsame with hcontent | ⟨pass, haccepts⟩
  · exact absurd hempty (Nat.ne_of_lt hcontent)
  · rw [← landing_filter hmoved _ _ haccepts, hfilter pass, landing_filter hmoved' _ _ haccepts]

/-- A region that the order leaves alone ends up where any other order takes it. -/
theorem Settles.region_eq (hstart : start.Settles layout []) (h : draft.Settles layout settled)
    (hperm : settled.Perm settled')
    (hinterface : ∀ tag ∈ settled, ∃ interface, tag.interface? layout.text layout.regions = some interface)
    (hfilter : ∀ pass : Pass, settled.filter (pass.accepts ·.directive) =
      settled'.filter (pass.accepts ·.directive))
    {given region current current' : Region} (hgiven : given ∈ layout.regions)
    (hregion : layout.Rests [] given region)
    (hcurrent : layout.Rests settled given current) (hcurrent' : layout.Rests settled' given current')
    (hsame : region.IsUndisputed (start.settledSince draft)) : current' = current := by
  have hplace : place (layout.substitutions settled') layout.text =
      place (layout.substitutions settled) layout.text :=
    (place_perm ((hperm.filterMap _).append_right _) h.sweeps.start_lt_stop h.sweeps.apart _).symm
  have hinterior : current'.interior = current.interior := by
    rcases Nat.eq_or_lt_of_le (Layout.remnant_within hgiven).2.1 with hempty | hcontent
    · obtain ⟨origin, -, horigin, hstood⟩ := hregion.empty hempty
      obtain ⟨position, hfree, hlanded, hplaced⟩ := hcurrent.empty hempty
      obtain ⟨position', hfree', hlanded', hplaced'⟩ := hcurrent'.empty hempty
      have hstands : region.interior = ⟨place (cuts layout.regions) layout.text given.remnant.start,
          place (cuts layout.regions) layout.text given.remnant.start⟩ :=
        hstood.trans (congrArg (fun position => (⟨position, position⟩ : Span)) horigin)
      have hmoved := fun tag (htag : tag ∈ settled.map (Tag.placed (cuts layout.regions) layout.text)) =>
        hstart.mem_settledSince h hinterface htag
      have hlanding := landing_eq_of_undisputed hmoved
        (fun tag htag => hmoved tag ((hperm.map _).mem_iff.mpr htag))
        (fun pass => ?_) (by rw [hstands]) hsame
      · rw [hstands, ← hlanded, ← hlanded'] at hlanding
        have heq := (layout.place_eq_iff h.sweeps.fitsIn h.sweeps.apart h.outside hfree hfree').mpr hlanding
        simp only [hplaced, hplaced', placeSpan, hplace, heq]
      · have hmap : ∀ tags : List Tag, (tags.map (Tag.placed (cuts layout.regions) layout.text)).filter
            (pass.accepts ·.directive) =
            (tags.filter (pass.accepts ·.directive)).map (Tag.placed (cuts layout.regions) layout.text) :=
          fun tags => List.filter_map
        rw [hmap, hmap, hfilter pass]
    · rw [hcurrent'.content hcontent, hcurrent.content hcontent]
      simp only [placeSpan, hplace]
  have hspan : current'.span = current.span :=
    hcurrent'.whole.trans (hinterior.trans hcurrent.whole.symm)
  cases current'
  cases current
  exact Region.mk.injEq .. ▸ ⟨hcurrent'.kind.trans hcurrent.kind.symm, hspan, hinterior⟩

/-- Content that is left when the regions are gone is not empty. -/
theorem Settles.remnant_empty (hstart : start.Settles layout []) {given region : Region}
    (hgiven : given ∈ layout.regions) (hregion : layout.Rests [] given region)
    (hspent : ¬ region.interior.start < region.interior.stop) : given.remnant.start = given.remnant.stop := by
  obtain ⟨-, hle, -, hboundary, hboundary'⟩ := Layout.remnant_within hgiven
  rcases Nat.eq_or_lt_of_le hle with hempty | hcontent
  · exact hempty
  · have hprotected : given.kind.isProtected = true := by
      by_contra hremoved
      simp [Region.remnant, hremoved] at hcontent
    have hremnant : given.remnant = given.interior := if_pos hprotected
    have hlt := place_lt hboundary hboundary' hcontent hstart.sweeps.start_lt_stop
      (hremnant ▸ hstart.sweeps.spare given hgiven hprotected)
    rw [hregion.content hcontent] at hspent
    exact absurd hlt hspent

/-- A region that is empty when the regions are gone stands behind tags that adjoin it when tags are settled. -/
theorem Settles.standsBehind (hstart : start.Settles layout []) {adjoining : List Tag}
    (hadjoining : ∀ tag ∈ settled.map (Tag.placed (cuts layout.regions) layout.text), tag ∈ adjoining)
    {given region current : Region} (hgiven : given ∈ layout.regions) (hregion : layout.Rests [] given region)
    (hcurrent : layout.Rests settled given current)
    (hspent : ¬ region.interior.start < region.interior.stop) :
    layout.StandsBehind settled adjoining region current := by
  have hempty := hstart.remnant_empty hgiven hregion hspent
  obtain ⟨origin, -, horigin, hstood⟩ := hregion.empty hempty
  have hplace : region.interior.start = place (cuts layout.regions) layout.text given.remnant.start := by
    rw [hstood]
    exact horigin
  obtain ⟨position, hfree, hlanded, hplaced⟩ := hcurrent.empty hempty
  refine ⟨⟨hcurrent.whole, by rw [hplaced]; rfl⟩, ⟨position, hfree, ?_, hplaced⟩, ?_⟩
  · rw [hplace]
    exact hlanded
  · exact landing_eq_or_adjoins hadjoining _

/-- Each tag that passes settle has a text that takes its place. -/
theorem exists_interface_of_settledBy {keepIncludes : Bool} {passes : List Pass} {tag : Tag}
    (h : tag ∈ layout.settledBy keepIncludes passes) :
    ∃ interface, tag.interface? layout.text layout.regions = some interface := by
  obtain ⟨pass, -, htag⟩ := List.mem_flatMap.mp (List.mem_reverse.mp h)
  exact exists_interface (accepts_of_mem_settledTags htag) _ _

/-- In any order the passes settle the same tags. -/
theorem settledBy_perm {passes passes' : List Pass} (hperm : passes.Perm passes') (keepIncludes : Bool) :
    (layout.settledBy keepIncludes passes).Perm (layout.settledBy keepIncludes passes') :=
  (List.reverse_perm _).trans ((hperm.flatMap_right _).trans (List.reverse_perm _).symm)

/-- In any order, what one pass accepts is settled in the same order. -/
theorem filter_settledBy {passes passes' : List Pass} (hperm : passes.Perm passes') (keepIncludes : Bool)
    (pass : Pass) : (layout.settledBy keepIncludes passes).filter (pass.accepts ·.directive) =
      (layout.settledBy keepIncludes passes').filter (pass.accepts ·.directive) := by
  rw [Layout.settledBy, Layout.settledBy, List.filter_reverse, List.filter_reverse,
    pass.filter_settledTags_of_perm hperm]

/-- The first two passes leave a draft in which no tag is settled yet. -/
theorem exists_cut {text : Text} {scan : RegionScan} (hscan : scanRegions text (scanTags text) = .ok scan)
    (keepIncludes : Bool) (lines : LineTable) :
    ∃ start reports, (Draft.ofScan text (scanTags text) scan).runAll keepIncludes lines
      [.unwrapRegions, .removeExcluded] = .ok (start, reports) ∧ start.Settles (.ofScan hscan) [] := by
  obtain ⟨unwrapped, start, hunwrapped, hremoved, hsweeps, -⟩ :=
    (Sweeps.ofScan hscan).cutAll keepIncludes lines
  refine ⟨start, [⟨.unwrapRegions, (regionsOf (·.isProtected) scan.regions).length, 0⟩,
    ⟨.removeExcluded, (regionsOf (!·.isProtected) scan.regions).length, 0⟩], ?_, Settles.nil hsweeps⟩
  simp only [runAll, hunwrapped, hremoved, bind, Except.bind, pure, Except.pure]
  rfl

/-- What two orders of the passes over the tags have in common. -/
theorem Settles.runAll_of_perm {passes : List Pass} (hstart : start.Settles layout [])
    (hperm : passes.Perm tagPasses) (keepIncludes : Bool) (lines : LineTable) :
    ∃ last last' : Draft,
      start.runAll keepIncludes lines tagPasses = .ok (last,
        tagPasses.map fun pass => pass.outcome keepIncludes layout.regions layout.tags) ∧
      start.runAll keepIncludes lines passes = .ok (last',
        passes.map fun pass => pass.outcome keepIncludes layout.regions layout.tags) ∧
      last.Settles layout (layout.settledBy keepIncludes tagPasses) ∧
      last'.Settles layout (layout.settledBy keepIncludes passes) ∧ last'.diagnostics = last.diagnostics := by
  have hall : ∀ pass ∈ tagPasses, pass.settlesTags = true := by decide
  have hkinds : ∀ pass ∈ passes, pass.settlesTags = true := fun pass hpass =>
    hall pass (hperm.mem_iff.mp hpass)
  have hnodup : passes.Nodup := hperm.nodup_iff.mpr (by decide)
  obtain ⟨last, hlast, hsettles, hdiagnostics⟩ :=
    hstart.runAll hall (by decide) (by simp) keepIncludes lines
  obtain ⟨last', hlast', hsettles', hdiagnostics'⟩ :=
    hstart.runAll hkinds hnodup (by simp) keepIncludes lines
  rw [List.append_nil] at hsettles hsettles'
  refine ⟨last, last', hlast, hlast', hsettles, hsettles', ?_⟩
  rw [hdiagnostics', hdiagnostics, Pass.surplusTags_of_perm hperm]

end Draft

/-- The passes over the tags commute.

For every header whose regions can be found, take the draft that is left when the regions are gone. In any
order the six passes over the tags succeed, and they leave the same text, the same pending tags, the same
report of each pass and the same diagnostics as in the order in which they are run. Every region keeps its kind.
The regions are the same too, with one exception: an empty one that tags of several passes adjoin stays empty,
and each order takes it to where the tags lead that are settled in this order, behind some of those that adjoin
it. -/
theorem tagPasses_commute (options : TransformOptions) (text : Text) {scan : RegionScan} {passes : List Pass}
    (h : scanRegions text (scanTags text) = .ok scan) (hperm : passes.Perm tagPasses) :
    ∃ start reports last last' outcome,
      (Draft.ofScan text (scanTags text) scan).runAll options.disableIncludeImport (.ofText text)
        [.unwrapRegions, .removeExcluded] = .ok (start, reports) ∧
      start.runAll options.disableIncludeImport (.ofText text) tagPasses =
        .ok (last, tagPasses.map outcome) ∧
      start.runAll options.disableIncludeImport (.ofText text) passes = .ok (last', passes.map outcome) ∧
      last'.source.current = last.source.current ∧ last'.tags = last.tags ∧
      last'.sortedDiagnostics = last.sortedDiagnostics ∧
      last.source.regions.length = start.source.regions.length ∧
      last'.source.regions.length = start.source.regions.length ∧
      ∀ (index : Nat) (region current current' : Region), start.source.regions[index]? = some region →
        last.source.regions[index]? = some current → last'.source.regions[index]? = some current' →
        current.kind = region.kind ∧ current'.kind = region.kind ∧
        (region.IsUndisputed (start.settledSince last) → current' = current) ∧
        (¬ region.IsUndisputed (start.settledSince last) →
          (Layout.ofScan h).StandsBehind ((Layout.ofScan h).settledBy options.disableIncludeImport tagPasses)
            (start.settledSince last) region current ∧
          (Layout.ofScan h).StandsBehind ((Layout.ofScan h).settledBy options.disableIncludeImport passes)
            (start.settledSince last) region current') := by
  obtain ⟨start, reports, hcut, hstart⟩ := Draft.exists_cut h options.disableIncludeImport (.ofText text)
  obtain ⟨last, last', hlast, hlast', hsettles, hsettles', hdiagnostics⟩ :=
    hstart.runAll_of_perm hperm options.disableIncludeImport (.ofText text)
  have hsame : ((Layout.ofScan h).settledBy options.disableIncludeImport tagPasses).Perm
      ((Layout.ofScan h).settledBy options.disableIncludeImport passes) := Draft.settledBy_perm hperm.symm _
  have hswapped := hsettles.sweeps.perm ((hsame.filterMap _).append_right _)
  have hinterface : ∀ tag ∈ (Layout.ofScan h).settledBy options.disableIncludeImport tagPasses,
      ∃ interface, tag.interface? text scan.regions = some interface := fun _ => Draft.exists_interface_of_settledBy
  have hsettled : ∀ tag ∈ ((Layout.ofScan h).settledBy options.disableIncludeImport tagPasses).map
      (Tag.placed (cuts scan.regions) text), tag ∈ start.settledSince last := fun _ =>
    hstart.mem_settledSince hsettles hinterface
  refine ⟨start, reports, last, last', _, hcut, hlast, hlast', ?_, ?_, ?_, ?_, ?_, ?_⟩
  · exact hsettles'.sweeps.current.trans hswapped.current.symm
  · exact hsettles'.sweeps.tags.trans hswapped.tags.symm
  · rw [Draft.sortedDiagnostics, Draft.sortedDiagnostics, hdiagnostics]
  · rw [← hsettles.rests.length_eq, hstart.rests.length_eq]
  · rw [← hsettles'.rests.length_eq, hstart.rests.length_eq]
  · intro index region current current' hregion hcurrent hcurrent'
    obtain ⟨hindex, rfl⟩ := List.getElem?_eq_some_iff.mp hregion
    obtain ⟨hindex', rfl⟩ := List.getElem?_eq_some_iff.mp hcurrent
    obtain ⟨hindex'', rfl⟩ := List.getElem?_eq_some_iff.mp hcurrent'
    have hlength : index < scan.regions.length := hstart.rests.length_eq ▸ hindex
    have hgiven : scan.regions[index] ∈ (Layout.ofScan h).regions := List.getElem_mem hlength
    have hstands := hstart.rests.get hlength hindex
    have hrests := hsettles.rests.get hlength hindex'
    have hrests' := hsettles'.rests.get hlength hindex''
    refine ⟨hrests.kind.trans hstands.kind.symm, hrests'.kind.trans hstands.kind.symm, ?_, fun hdisputed => ?_⟩
    · exact hstart.region_eq hsettles hsame hinterface
        (fun pass => Draft.filter_settledBy hperm.symm _ pass) hgiven hstands hrests hrests'
    · have hempty := fun hcontent => hdisputed (.inl hcontent)
      refine ⟨hstart.standsBehind hsettled hgiven hstands hrests hempty,
        hstart.standsBehind (fun tag htag => hsettled tag ?_) hgiven hstands hrests' hempty⟩
      exact (hsame.map _).mem_iff.mpr htag

/-- The passes over the tags, with imports before the module declaration. -/
def importsFirst : List Pass :=
  [.importTarget, .moduleFragment, .exportDeclaration, .exportModule, .exportImport, .includeImport]

/-- A header with a protected region that has content, and tags of two passes right behind it. -/
def adjoinedHeader : Text := "/*[[x]]*//*[export module a]*//*[import b]*/".toList

/-- The region of that header. -/
def adjoinedScan : RegionScan := ⟨[⟨.literal, ⟨0, 9⟩, ⟨4, 5⟩⟩], []⟩

theorem tagPasses_commute_adjoinedHeader :
    scanRegions adjoinedHeader (scanTags adjoinedHeader) = .ok adjoinedScan ∧
    importsFirst.Perm tagPasses ∧
    ∃ start reports last outcomes last' outcomes',
      (Draft.ofScan adjoinedHeader (scanTags adjoinedHeader) adjoinedScan).runAll false
        (.ofText adjoinedHeader) [.unwrapRegions, .removeExcluded] = .ok (start, reports) ∧
      start.runAll false (.ofText adjoinedHeader) tagPasses = .ok (last, outcomes) ∧
      start.runAll false (.ofText adjoinedHeader) importsFirst = .ok (last', outcomes') ∧
      last.source.current = "xexport module a;import b;".toList ∧
      last'.source.current = last.source.current ∧ last'.source.regions = last.source.regions := by
  have hscan : scanRegions adjoinedHeader (scanTags adjoinedHeader) = .ok adjoinedScan :=
    eq_ok_of_toOption (by decide +kernel)
  have hperm : importsFirst.Perm tagPasses := by decide
  obtain ⟨start, reports, last, last', outcome, hcut, hlast, hlast', hcurrent, -, -, hlength, hlength',
    hregions⟩ := tagPasses_commute {} adjoinedHeader hscan hperm
  have hruns : ((Draft.ofScan adjoinedHeader (scanTags adjoinedHeader) adjoinedScan).runAll false
      (.ofText adjoinedHeader) [.unwrapRegions, .removeExcluded] >>= fun start =>
        start.1.runAll false (.ofText adjoinedHeader) tagPasses >>= fun last =>
          .ok (start.1.source.regions, last.1.source.current)).toOption =
      some ([⟨.literal, ⟨0, 1⟩, ⟨0, 1⟩⟩], "xexport module a;import b;".toList) := by decide +kernel
  obtain ⟨⟨start', reports'⟩, hcut', hruns⟩ := bind_eq_ok_iff.mp (eq_ok_of_toOption hruns)
  obtain ⟨rfl, rfl⟩ := Prod.mk.inj (Except.ok.inj (hcut.symm.trans hcut'))
  obtain ⟨⟨last'', outcomes⟩, hlast'', hresult⟩ := bind_eq_ok_iff.mp hruns
  obtain ⟨rfl, rfl⟩ := Prod.mk.inj (Except.ok.inj (hlast.symm.trans hlast''))
  obtain ⟨hstart, htext⟩ := Prod.mk.inj (Except.ok.inj hresult)
  refine ⟨hscan, hperm, start, reports, last, _, last', _, hcut, hlast, hlast', htext, hcurrent, ?_⟩
  refine List.ext_getElem (hlength'.trans hlength.symm) fun index hindex' hindex => ?_
  have hgiven : index < start.source.regions.length := hlength ▸ hindex
  refine (hregions index _ _ _ (List.getElem?_eq_getElem hgiven) (List.getElem?_eq_getElem hindex)
    (List.getElem?_eq_getElem hindex')).2.2.1 (.inl ?_)
  obtain rfl : index = 0 := by
    rw [hstart] at hgiven
    exact Nat.lt_one_iff.mp hgiven
  rw [List.getElem_of_eq hstart hgiven]
  exact Nat.zero_lt_one

/-- A header with a protected region that has no content, and tags of two passes right behind it. -/
def disputedHeader : Text :=
  "/*[ignore begin]*//*[ignore end]*//*[export module a]*//*[import b]*/".toList

/-- The region of that header. -/
def disputedScan : RegionScan := ⟨[⟨.preserved, ⟨0, 34⟩, ⟨18, 18⟩⟩], []⟩

theorem spentRegion_depends_on_order :
    scanRegions disputedHeader (scanTags disputedHeader) = .ok disputedScan ∧
    importsFirst.Perm tagPasses ∧
    ∃ start reports last outcomes last' outcomes',
      (Draft.ofScan disputedHeader (scanTags disputedHeader) disputedScan).runAll false
        (.ofText disputedHeader) [.unwrapRegions, .removeExcluded] = .ok (start, reports) ∧
      start.runAll false (.ofText disputedHeader) tagPasses = .ok (last, outcomes) ∧
      start.runAll false (.ofText disputedHeader) importsFirst = .ok (last', outcomes') ∧
      last.source.regions = [⟨.preserved, ⟨25, 25⟩, ⟨25, 25⟩⟩] ∧
      last'.source.regions = [⟨.preserved, ⟨16, 16⟩, ⟨16, 16⟩⟩] := by
  have hruns : ((Draft.ofScan disputedHeader (scanTags disputedHeader) disputedScan).runAll false
      (.ofText disputedHeader) [.unwrapRegions, .removeExcluded] >>= fun start =>
        start.1.runAll false (.ofText disputedHeader) tagPasses >>= fun last =>
          start.1.runAll false (.ofText disputedHeader) importsFirst >>= fun last' =>
            .ok (last.1.source.regions, last'.1.source.regions)).toOption =
      some ([⟨.preserved, ⟨25, 25⟩, ⟨25, 25⟩⟩], [⟨.preserved, ⟨16, 16⟩, ⟨16, 16⟩⟩]) := by decide +kernel
  obtain ⟨⟨start, reports⟩, hcut, hruns⟩ := bind_eq_ok_iff.mp (eq_ok_of_toOption hruns)
  obtain ⟨⟨last, outcomes⟩, hlast, hruns⟩ := bind_eq_ok_iff.mp hruns
  obtain ⟨⟨last', outcomes'⟩, hlast', hregions⟩ := bind_eq_ok_iff.mp hruns
  obtain ⟨hregions, hregions'⟩ := Prod.mk.injEq .. ▸ Except.ok.inj hregions
  exact ⟨eq_ok_of_toOption (by decide +kernel), by decide, start, reports, last, outcomes, last', outcomes',
    hcut, hlast, hlast', hregions, hregions'⟩

end TaggedHeader
