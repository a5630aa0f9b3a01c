import TaggedHeader.Proofs.Name
import TaggedHeader.Proofs.Tag.Spelling

/-!
# The grammar of payloads

`Directive.Names` says which payloads name which directive, by how they are put together from words and blanks:
statements, which may end in a semicolon, and bare words, which may not. Reading a payload finds the directive that it
names, and no directive in any other payload. For the one direction the parts of a payload are put in front of the
reader one after the other, for the other direction what the reader accepted is taken apart.
-/

namespace TaggedHeader

open Text Keyword

/-- How an import target is written: a module, or in angle brackets a header, or else a module. -/
inductive ImportTarget.Spells : Text → ImportTarget → Prop
  | module {name : Text} (hname : ModuleName.Spells name) : Spells name (.module (.ofSpells hname))
  | header {name : Text} (hname : HeaderName.Spells name) :
    Spells ('<' :: name ++ ['>']) (.header (.ofSpells hname))
  | bracketedModule {name : Text} (hname : ModuleName.Spells name) (hheader : ¬ HeaderName.Spells name) :
    Spells ('<' :: name ++ ['>']) (.bracketedModule (.ofSpells hname))

namespace Directive

/-- The words of a directive that becomes a statement. -/
inductive Statement : Text → Directive → Prop
  | anonymous : Statement moduleWord (.moduleFragment .anonymous)
  | named {gap name : Text} (hgap : IsGap gap) (hname : ModuleName.Spells name) :
    Statement (moduleWord ++ (gap ++ name)) (.moduleFragment (.named (.ofSpells hname)))
  | partition {before behind name : Text} (hbefore : Blanks before) (hbehind : Blanks behind)
    (hname : ModuleName.Spells name) :
    Statement (moduleWord ++ (before ++ ':' :: (behind ++ name))) (.moduleFragment (.partition (.ofSpells hname)))
  | exportModule {first second name : Text} (hfirst : IsGap first) (hsecond : IsGap second)
    (hname : ModuleName.Spells name) :
    Statement (exportWord ++ (first ++ (moduleWord ++ (second ++ name)))) (.exportModule (.ofSpells hname))
  | exportImport {first second name : Text} (hfirst : IsGap first) (hsecond : IsGap second)
    (hname : ModuleName.Spells name) :
    Statement (exportWord ++ (first ++ (importWord ++ (second ++ name)))) (.exportImport (.ofSpells hname))
  | importTarget {gap text : Text} {target : ImportTarget} (hgap : IsGap gap)
    (htarget : ImportTarget.Spells text target) : Statement (importWord ++ (gap ++ text)) (.importTarget target)

/-- The words of a directive that takes no semicolon. -/
inductive Bare : Text → Directive → Prop
  | exportDeclaration : Bare exportWord .exportDeclaration
  | excludeBegin {gap : Text} (hgap : IsGap gap) : Bare (excludeWord ++ (gap ++ beginWord)) .excludeBegin
  | excludeEnd {gap : Text} (hgap : IsGap gap) : Bare (excludeWord ++ (gap ++ endWord)) .excludeEnd
  | ignoreBegin {gap : Text} (hgap : IsGap gap) : Bare (ignoreWord ++ (gap ++ beginWord)) .ignoreBegin
  | ignoreEnd {gap : Text} (hgap : IsGap gap) : Bare (ignoreWord ++ (gap ++ endWord)) .ignoreEnd

/-- The end of a statement: nothing, or a semicolon, possibly behind blanks. -/
inductive Terminator : Text → Prop
  | absent : Terminator []
  | present {gap : Text} (hgap : Blanks gap) : Terminator (gap ++ [';'])

/-- The payloads that name a directive. -/
inductive Names : Text → Directive → Prop
  | statement {lead core mark trail : Text} {directive : Directive} (hlead : Blanks lead)
    (hcore : Statement core directive) (hmark : Terminator mark) (htrail : Blanks trail) :
    Names (lead ++ (core ++ mark) ++ trail) directive
  | bare {lead core trail : Text} {directive : Directive} (hlead : Blanks lead) (hcore : Bare core directive)
    (htrail : Blanks trail) : Names (lead ++ core ++ trail) directive

/-- The directive that the part of a payload before the semicolon names, given whether there is a semicolon. -/
def classify (terminated : Bool) (body : Text) : Directive :=
  match ModuleFragment.parse? body with
  | some fragment => .moduleFragment fragment
  | none => .ofWords terminated (words body)

end Directive

/-! ## Names and targets as words -/

theorem ModuleName.Spells.isWord {name : Text} (h : ModuleName.Spells name) : IsWord name :=
  (ModuleName.ofSpells h).isWord

theorem ModuleName.Spells.parse?_eq {name : Text} (h : ModuleName.Spells name) :
    ModuleName.parse? name = some (.ofSpells h) :=
  ModuleName.parse?_eq_some_iff.mpr ⟨h, rfl⟩

theorem ModuleName.Spells.semicolon_notMem {name : Text} (h : ModuleName.Spells name) : ';' ∉ name := fun hmem =>
  absurd ((ModuleName.ofSpells h).isTargetChar_of_mem _ hmem) (by decide)

/-- A module name starts with an identifier character. -/
theorem ModuleName.Spells.head_ne {name rest : Text} {c : Char} (h : ModuleName.Spells name)
    (hc : isIdentifierChar c = false) : name ≠ c :: rest := by
  rintro rfl
  cases h with
  | short hfirst => simp [hfirst] at hc
  | long hfirst => simp [hfirst] at hc

namespace ImportTarget

/-- A target in angle brackets is read off what stands between them. -/
theorem parse?_brackets (inner : Text) : parse? ('<' :: inner ++ ['>']) =
    match HeaderName.parse? inner with
    | some name => some (.header name)
    | none => (ModuleName.parse? inner).map .bracketedModule := by
  rw [List.cons_append, parse?, dropLastWord?_append]
  rfl

/-- An import target is read as what it spells. -/
theorem parse?_eq_some_iff {text : Text} {target : ImportTarget} :
    parse? text = some target ↔ Spells text target := by
  constructor
  · intro h
    unfold parse? at h
    split at h
    · rename_i rest
      obtain ⟨inner, hinner, htarget⟩ := Option.bind_eq_some_iff.mp h
      rw [eq_append_of_dropLastWord? hinner]
      split at htarget
      · rename_i name hname
        obtain ⟨hspells, rfl⟩ := HeaderName.parse?_eq_some_iff.mp hname
        exact Option.some.inj htarget ▸ .header hspells
      · rename_i hnone
        obtain ⟨name, hname, rfl⟩ := Option.map_eq_some_iff.mp htarget
        obtain ⟨hspells, rfl⟩ := ModuleName.parse?_eq_some_iff.mp hname
        refine .bracketedModule hspells fun hheader => ?_
        rw [HeaderName.parse?_eq_some_iff.mpr ⟨hheader, rfl⟩] at hnone
        cases hnone
    · obtain ⟨name, hname, rfl⟩ := Option.map_eq_some_iff.mp h
      obtain ⟨hspells, rfl⟩ := ModuleName.parse?_eq_some_iff.mp hname
      exact .module hspells
  · intro h
    cases h with
    | module hname =>
      unfold parse?
      split
      · rename_i rest
        exact absurd rfl (hname.head_ne (by decide))
      · rw [hname.parse?_eq]
        rfl
    | header hname => rw [parse?_brackets, HeaderName.parse?_eq_some_iff.mpr ⟨hname, rfl⟩]
    | @bracketedModule name hname hheader =>
      have hnone : HeaderName.parse? name = none :=
        Option.eq_none_iff_forall_ne_some.mpr fun header heq =>
          hheader (HeaderName.parse?_eq_some_iff.mp heq).1
      rw [parse?_brackets, hnone, hname.parse?_eq]
      rfl

/-- A bracketed name is one word. -/
theorem isWord_brackets {inner : Text} (hinner : ∀ c ∈ inner, isTargetChar c = true) :
    IsWord ('<' :: inner ++ ['>']) := by
  refine ⟨List.cons_ne_nil _ _, fun c hc => ?_⟩
  simp only [List.cons_append, List.mem_cons, List.mem_append, List.not_mem_nil, or_false] at hc
  rcases hc with rfl | hc | rfl
  · rfl
  · exact isBlank_eq_false_of_isTargetChar (hinner c hc)
  · rfl

theorem Spells.isWord {text : Text} {target : ImportTarget} (h : Spells text target) : IsWord text := by
  cases h with
  | module hname => exact hname.isWord
  | header hname => exact isWord_brackets (HeaderName.ofSpells hname).isTargetChar_of_mem
  | bracketedModule hname => exact isWord_brackets (ModuleName.ofSpells hname).isTargetChar_of_mem

theorem Spells.semicolon_notMem {text : Text} {target : ImportTarget} (h : Spells text target) : ';' ∉ text := by
  cases h with
  | module hname => exact hname.semicolon_notMem
  | @header name hname =>
    have hinner : ';' ∉ name := fun hmem =>
      absurd ((HeaderName.ofSpells hname).isTargetChar_of_mem _ hmem) (by decide)
    simpa using hinner
  | bracketedModule hname => simpa using hname.semicolon_notMem

end ImportTarget

namespace Directive

variable {core : Text} {directive : Directive} {terminated : Bool}

/-! ## Payloads that name a directive are read -/

/-- The words of the tag language. -/
def keywords : List Text := [moduleWord, exportWord, importWord, excludeWord, ignoreWord, beginWord, endWord]

theorem isWord_keyword {word : Text} (h : word ∈ keywords) : IsWord word := by
  have hkeywords : keywords.all (fun word => !word.isEmpty && word.all fun c => !isBlank c) = true := by decide
  have hshape := List.all_eq_true.mp hkeywords word h
  rw [Bool.and_eq_true] at hshape
  exact ⟨by simpa using hshape.1, by simpa using hshape.2⟩

theorem isWord_module : IsWord moduleWord := isWord_keyword (by simp [keywords])

theorem isWord_export : IsWord exportWord := isWord_keyword (by simp [keywords])

theorem isWord_import : IsWord importWord := isWord_keyword (by simp [keywords])

/-- The fragment that is meant by what follows its keyword and the blanks behind that. -/
def ofName? : Text → Option ModuleFragment
  | ':' :: name => (ModuleName.parse? (trimStart name)).map .partition
  | name => (ModuleName.parse? name).map .named

/-- A module fragment is read off what follows its keyword and a gap, or a colon. -/
theorem parse?_fragment {gap rest : Text} (hgap : Blanks gap) (hrest : rest.head?.any (!isBlank ·) = true)
    (hstart : gap ≠ [] ∨ rest.head? = some ':') : ModuleFragment.parse? (moduleWord ++ (gap ++ rest)) = ofName? rest := by
  have htrim := trimStart_append hgap hrest
  have hhead : ∃ c tail, gap ++ rest = c :: tail ∧ (isBlank c || c == ':') = true := by
    cases gap with
    | nil =>
      cases rest with
      | nil => cases hrest
      | cons c tail =>
        have hcolon : c = ':' := by simpa using hstart
        exact ⟨c, tail, rfl, by simp [hcolon]⟩
    | cons c gap => exact ⟨c, gap ++ rest, rfl, by simp [hgap c List.mem_cons_self]⟩
  obtain ⟨c, tail, heq, hc⟩ := hhead
  rw [heq] at htrim ⊢
  rw [ModuleFragment.parse?, dropWord?_append]
  simp only [hc, if_true, htrim]
  rfl

/-- What stands between the blanks around a payload, without its semicolon. -/
structure IsCore (core : Text) : Prop extends IsTrimmed core where
  notTerminated : core.getLast? ≠ some ';'

theorem isCore_append {left last : Text} (hleft : IsWord left) (hlast : IsWord last) (hmark : ';' ∉ last)
    (middle : Text) : IsCore (left ++ middle ++ last) := by
  refine ⟨hleft.isTrimmed.append hlast.isTrimmed middle, fun hend => hmark ?_⟩
  rw [List.getLast?_append, List.getLast?_eq_some_getLast hlast.nonempty, Option.some_or] at hend
  exact Option.some.inj hend ▸ List.getLast_mem hlast.nonempty

theorem Statement.isCore (h : Statement core directive) : IsCore core := by
  cases h with
  | anonymous => exact ⟨isWord_module.isTrimmed, by decide⟩
  | named hgap hname => simpa using isCore_append isWord_module hname.isWord hname.semicolon_notMem _
  | @partition before behind name hbefore hbehind hname =>
    simpa using isCore_append isWord_module hname.isWord hname.semicolon_notMem (before ++ ':' :: behind)
  | @exportModule first second name hfirst hsecond hname =>
    simpa using isCore_append isWord_export hname.isWord hname.semicolon_notMem (first ++ (moduleWord ++ second))
  | @exportImport first second name hfirst hsecond hname =>
    simpa using isCore_append isWord_export hname.isWord hname.semicolon_notMem (first ++ (importWord ++ second))
  | importTarget hgap htarget =>
    simpa using isCore_append isWord_import htarget.isWord htarget.semicolon_notMem _

theorem Bare.isCore (h : Bare core directive) : IsCore core := by
  cases h with
  | exportDeclaration => exact ⟨isWord_export.isTrimmed, by decide⟩
  | excludeBegin | excludeEnd | ignoreBegin | ignoreEnd =>
    simpa using isCore_append (isWord_keyword (by simp [keywords])) (isWord_keyword (by simp [keywords]))
      (by decide) _

theorem Bare.spaced (h : Bare core directive) :
    ∃ parts, Spaced parts core ∧ (∀ part ∈ parts, part ∈ keywords) ∧ ofWords false parts = directive := by
  cases h with
  | exportDeclaration => exact ⟨_, .last _, by simp [keywords], rfl⟩
  | excludeBegin hgap | excludeEnd hgap | ignoreBegin hgap | ignoreEnd hgap =>
    exact ⟨_, .cons hgap (.last _), by simp [keywords], by decide⟩

theorem classify_of_fragment {fragment : ModuleFragment} (h : ModuleFragment.parse? core = some fragment)
    (terminated : Bool) : classify terminated core = .moduleFragment fragment := by
  rw [classify, h]

/-- Words that do not start with the one of a module fragment are classified one by one. -/
theorem classify_of_spaced {parts : List Text} (hfragment : ModuleFragment.parse? core = none)
    (hcore : Spaced parts core) (hparts : ∀ part ∈ parts, IsWord part) (terminated : Bool) :
    classify terminated core = ofWords terminated parts := by
  rw [classify, hfragment, hcore.words_eq hparts]

/-- A statement is read, with a semicolon or without. -/
theorem Statement.classify_eq (h : Statement core directive) (terminated : Bool) :
    classify terminated core = directive := by
  cases h with
  | anonymous => exact classify_of_fragment rfl terminated
  | @named gap name hgap hname =>
    refine classify_of_fragment ?_ terminated
    rw [parse?_fragment hgap.blanks hname.isWord.isTrimmed.head (.inl hgap.nonempty)]
    unfold ofName?
    split
    · exact absurd rfl (hname.head_ne (by decide))
    · rw [hname.parse?_eq]
      rfl
  | partition hbefore hbehind hname =>
    refine classify_of_fragment ?_ terminated
    rw [parse?_fragment hbefore rfl (.inr rfl), ofName?, trimStart_append hbehind hname.isWord.isTrimmed.head,
      hname.parse?_eq]
    rfl
  | exportModule hfirst hsecond hname =>
    rw [classify_of_spaced rfl (.cons hfirst (.cons hsecond (.last _)))
      (by simpa using ⟨isWord_export, isWord_module, hname.isWord⟩)]
    simp [ofWords, hname.parse?_eq]
  | exportImport hfirst hsecond hname =>
    rw [classify_of_spaced rfl (.cons hfirst (.cons hsecond (.last _)))
      (by simpa using ⟨isWord_export, isWord_import, hname.isWord⟩)]
    simp [ofWords, hname.parse?_eq, moduleWord, importWord]
  | importTarget hgap htarget =>
    rw [classify_of_spaced rfl (.cons hgap (.last _)) (by simpa using ⟨isWord_import, htarget.isWord⟩)]
    simp [ofWords, ImportTarget.parse?_eq_some_iff.mpr htarget]

/-- Bare words are read where no semicolon follows. -/
theorem Bare.classify_eq (h : Bare core directive) : classify false core = directive := by
  obtain ⟨parts, hspaced, hparts, hdirective⟩ := h.spaced
  have hfragment : ModuleFragment.parse? core = none := by cases h <;> rfl
  rw [classify_of_spaced hfragment hspaced fun part hpart => isWord_keyword (hparts part hpart), hdirective]

/-- A payload is classified once its blanks and its semicolon are off. -/
theorem parse_eq_classify (payload : Text) : Directive.parse payload =
    classify (splitTerminator (trim payload)).2 (splitTerminator (trim payload)).1 := rfl

theorem splitTerminator_append {gap : Text} (hcore : IsTrimmed core) (hgap : Blanks gap) :
    splitTerminator (core ++ (gap ++ [';'])) = (core, true) := by
  rw [splitTerminator, ← List.append_assoc, dropLastWord?_append]
  simp only [trimEnd_append hcore.last hgap]

theorem splitTerminator_eq_self (hcore : core.getLast? ≠ some ';') : splitTerminator core = (core, false) := by
  unfold splitTerminator
  split
  · rename_i body hbody
    rw [eq_append_of_dropLastWord? hbody, List.getLast?_concat] at hcore
    exact absurd rfl hcore
  · rfl

/-- A payload that names a directive is read as this directive. -/
theorem Names.parse_eq {payload : Text} (h : Names payload directive) : Directive.parse payload = directive := by
  rw [parse_eq_classify]
  cases h with
  | @statement lead core mark trail _ hlead hcore hmark htrail =>
    cases hmark with
    | absent =>
      rw [List.append_nil, hcore.isCore.trim_append hlead htrail, splitTerminator_eq_self hcore.isCore.notTerminated]
      exact hcore.classify_eq false
    | @present gap hgap =>
      have hwhole : IsTrimmed (core ++ gap ++ [';']) := hcore.isCore.toIsTrimmed.append ⟨rfl, rfl⟩ gap
      rw [List.append_assoc core] at hwhole
      rw [hwhole.trim_append hlead htrail, splitTerminator_append hcore.isCore.toIsTrimmed hgap]
      exact hcore.classify_eq true
  | @bare lead core trail _ hlead hcore htrail =>
    rw [hcore.isCore.trim_append hlead htrail, splitTerminator_eq_self hcore.isCore.notTerminated]
    exact hcore.classify_eq

/-- A statement is read back with a semicolon right behind it. -/
theorem Statement.parse_terminated (h : Statement core directive) : Directive.parse (core ++ [';']) = directive := by
  have hnames := Names.statement blanks_nil h (.present blanks_nil) blanks_nil
  simpa using hnames.parse_eq

/-! ## Payloads that are read name a directive -/

/-- A module fragment that is read is a statement. -/
theorem statement_of_fragment {fragment : ModuleFragment} (h : ModuleFragment.parse? core = some fragment) :
    Statement core (.moduleFragment fragment) := by
  unfold ModuleFragment.parse? at h
  split at h
  · cases h
  · rename_i hword
    rw [eq_append_of_dropWord? hword, List.append_nil]
    exact Option.some.inj h ▸ .anonymous
  · rename_i c rest hword
    rw [eq_append_of_dropWord? hword]
    split at h
    · rename_i hc
      obtain ⟨gap, hgap, hbody⟩ := exists_trimStart (c :: rest)
      generalize trimStart (c :: rest) = body at h hbody
      rw [hbody]
      split at h
      · rename_i name
        obtain ⟨behind, hbehind, hname⟩ := exists_trimStart name
        generalize trimStart name = text at h hname
        rw [hname]
        obtain ⟨found, hfound, rfl⟩ := Option.map_eq_some_iff.mp h
        obtain ⟨hspells, rfl⟩ := ModuleName.parse?_eq_some_iff.mp hfound
        exact .partition hgap hbehind hspells
      · rename_i hcolon
        obtain ⟨found, hfound, rfl⟩ := Option.map_eq_some_iff.mp h
        obtain ⟨hspells, rfl⟩ := ModuleName.parse?_eq_some_iff.mp hfound
        refine .named ⟨hgap, ?_⟩ hspells
        rintro rfl
        rw [List.nil_append] at hbody
        rcases Bool.or_eq_true_iff.mp hc with hblank | hcolon'
        · rw [hspells.isWord.visible c (hbody ▸ List.mem_cons_self)] at hblank
          cases hblank
        · exact hcolon rest (by rw [← hbody, beq_iff_eq.mp hcolon'])
    · cases h

/-- A name that decides about a directive is spelled where the directive is known. -/
theorem exists_name {name : Text} {make : ModuleName → Directive}
    (h : ((ModuleName.parse? name).map make).getD .unknown = directive) (hne : directive ≠ .unknown) :
    ∃ hname : ModuleName.Spells name, directive = make (.ofSpells hname) := by
  cases hparse : ModuleName.parse? name with
  | none =>
    rw [hparse] at h
    exact absurd h.symm hne
  | some found =>
    obtain ⟨hname, rfl⟩ := ModuleName.parse?_eq_some_iff.mp hparse
    rw [hparse] at h
    exact ⟨hname, h.symm⟩

/-- The words that are classified as a directive are those of a statement, or bare words where no semicolon
follows. -/
theorem named_of_ofWords {parts : List Text} (h : ofWords terminated parts = directive) (hne : directive ≠ .unknown)
    (hcore : Spaced parts core) : Statement core directive ∨ terminated = false ∧ Bare core directive := by
  unfold ofWords at h
  split at h
  · cases hcore
    split at h
    · rename_i hfirst
      obtain ⟨rfl, hopen⟩ : _ = exportWord ∧ terminated = false := by simpa using hfirst
      exact .inr ⟨hopen, h ▸ .exportDeclaration⟩
    · exact absurd h.symm hne
  · rename_i first second
    cases hcore with
    | cons hgap hrest =>
    cases hrest
    split at h
    · rename_i hfirst
      subst hfirst
      cases htarget : ImportTarget.parse? second with
      | none =>
        rw [htarget] at h
        exact absurd h.symm hne
      | some target =>
        rw [htarget] at h
        exact .inl (h ▸ .importTarget hgap (ImportTarget.parse?_eq_some_iff.mp htarget))
    · split at h
      · exact absurd h.symm hne
      · rename_i hopen
        refine .inr ⟨Bool.eq_false_iff.mpr hopen, ?_⟩
        split_ifs at h with hexclude hexcludeEnd hignore hignoreEnd
        · obtain ⟨rfl, rfl⟩ : first = excludeWord ∧ second = beginWord := by simpa using hexclude
          exact h ▸ .excludeBegin hgap
        · obtain ⟨rfl, rfl⟩ : first = excludeWord ∧ second = endWord := by simpa using hexcludeEnd
          exact h ▸ .excludeEnd hgap
        · obtain ⟨rfl, rfl⟩ : first = ignoreWord ∧ second = beginWord := by simpa using hignore
          exact h ▸ .ignoreBegin hgap
        · obtain ⟨rfl, rfl⟩ : first = ignoreWord ∧ second = endWord := by simpa using hignoreEnd
          exact h ▸ .ignoreEnd hgap
        · exact absurd h.symm hne
  · rename_i first second third
    cases hcore with
    | cons hfirst hrest =>
    cases hrest with
    | cons hsecond hrest =>
    cases hrest
    split at h
    · rename_i hkeywords
      obtain ⟨rfl, rfl⟩ : first = exportWord ∧ second = moduleWord := by simpa using hkeywords
      obtain ⟨hname, rfl⟩ := exists_name h hne
      exact .inl (.exportModule hfirst hsecond hname)
    · split at h
      · rename_i hkeywords
        obtain ⟨rfl, rfl⟩ : first = exportWord ∧ second = importWord := by simpa using hkeywords
        obtain ⟨hname, rfl⟩ := exists_name h hne
        exact .inl (.exportImport hfirst hsecond hname)
      · exact absurd h.symm hne
  · exact absurd h.symm hne

/-- What is classified as a directive is, between blanks, a statement or bare words. -/
theorem named_of_classify {body : Text} (h : classify terminated body = directive) (hne : directive ≠ .unknown) :
    ∃ lead core trail, body = lead ++ (core ++ trail) ∧ Blanks lead ∧ Blanks trail ∧
      (Statement core directive ∨ terminated = false ∧ Bare core directive) := by
  unfold classify at h
  split at h
  · rename_i fragment hfragment
    exact ⟨[], body, [], by simp, blanks_nil, blanks_nil, .inl (h ▸ statement_of_fragment hfragment)⟩
  · have hwords : words body ≠ [] := by
      intro hnil
      rw [hnil] at h
      exact hne h.symm
    obtain ⟨lead, core, trail, hbody, hlead, htrail, hcore⟩ := exists_spaced_of_words rfl hwords
    exact ⟨lead, core, trail, hbody, hlead, htrail, named_of_ofWords h hne hcore⟩

/-- A payload that is read as a directive names it. -/
theorem names_of_parse {payload : Text} (h : Directive.parse payload = directive) (hne : directive ≠ .unknown) :
    Names payload directive := by
  rw [parse_eq_classify] at h
  obtain ⟨before, behind, hbefore, hbehind, hpayload⟩ := exists_trim payload
  generalize trim payload = inner at h hpayload
  rw [hpayload]
  cases hmark : dropLastWord? [';'] inner with
  | none =>
    have hsplit : splitTerminator inner = (inner, false) := by rw [splitTerminator, hmark]
    rw [hsplit] at h
    obtain ⟨lead, core, trail, rfl, hlead, htrail, hcore⟩ := named_of_classify h hne
    rcases hcore with hcore | ⟨-, hcore⟩
    · have hnames := Names.statement (hbefore.append hlead) hcore .absent (htrail.append hbehind)
      simpa using hnames
    · have hnames := Names.bare (hbefore.append hlead) hcore (htrail.append hbehind)
      simpa using hnames
  | some body =>
    have hsplit : splitTerminator inner = (trimEnd body, true) := by rw [splitTerminator, hmark]
    rw [hsplit] at h
    obtain ⟨gap, hgap, hbody⟩ := exists_trimEnd body
    obtain ⟨lead, core, trail, hstatement, hlead, htrail, hcore⟩ := named_of_classify h hne
    rcases hcore with hcore | ⟨hopen, -⟩
    · rw [eq_append_of_dropLastWord? hmark, hbody, show trimEnd body = _ from hstatement]
      have hnames := Names.statement (hbefore.append hlead) hcore (.present (htrail.append hgap)) hbehind
      simpa using hnames
    · cases hopen

theorem Statement.ne_unknown (h : Statement core directive) : directive ≠ .unknown := by
  rintro rfl
  cases h

theorem Bare.ne_unknown (h : Bare core directive) : directive ≠ .unknown := by
  rintro rfl
  cases h

theorem Names.ne_unknown {payload : Text} (h : Names payload directive) : directive ≠ .unknown := by
  cases h with
  | statement hlead hcore => exact hcore.ne_unknown
  | bare hlead hcore => exact hcore.ne_unknown

/-- Reading a payload accepts exactly the grammar of payloads.

A payload is read as a known directive if and only if it names this directive, and as unknown if and only if it names
none. -/
theorem parse_eq_iff (payload : Text) (directive : Directive) : Directive.parse payload = directive ↔
    Names payload directive ∨ directive = .unknown ∧ ∀ named, ¬ Names payload named := by
  constructor
  · intro h
    by_cases hne : directive = .unknown
    · refine .inr ⟨hne, fun named hnames => hnames.ne_unknown ?_⟩
      rw [← hnames.parse_eq, h, hne]
    · exact .inl (names_of_parse h hne)
  · rintro (hnames | ⟨rfl, hnone⟩)
    · exact hnames.parse_eq
    · by_contra hne
      exact hnone _ (names_of_parse rfl hne)

/-- A bare word takes no semicolon. -/
example : Directive.parse "export ;".toList = .unknown ∧ Directive.parse " export ".toList = .exportDeclaration := by
  decide

end Directive
end TaggedHeader
