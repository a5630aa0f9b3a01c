import TaggedHeader.Proofs.Directive.Grammar
import TaggedHeader.Proofs.Tag.Quiet

/-!
# Rendering and reading back

What takes the place of a tag is a few words with single blanks between them, closed by a semicolon. A
reader that takes the words apart again finds the directive it was made from, and a bracket tag with such a
payload is found as a whole. `Directive.Words` lists the words of each directive, and each of its cases is a
statement of the grammar of payloads; an import target is the one that has two readings, so there the reading
it came from matters.
-/

namespace TaggedHeader

open Text Keyword

/-- The words that a directive becomes, up to the semicolon. -/
inductive Directive.Words : Directive → List Text → Prop
  | anonymous : Words (.moduleFragment .anonymous) [moduleWord]
  | named (name : ModuleName) : Words (.moduleFragment (.named name)) [moduleWord, name.text]
  | partition (name : ModuleName) : Words (.moduleFragment (.partition name)) [moduleWord, ':' :: name.text]
  | exportModule (name : ModuleName) : Words (.exportModule name) [exportWord, moduleWord, name.text]
  | exportImport (name : ModuleName) : Words (.exportImport name) [exportWord, importWord, name.text]
  | importTarget (target : ImportTarget) : Words (.importTarget target) [importWord, target.render]
  | includeHeader (header : HeaderName) : Words (.includeHeader header) [importWord, '<' :: header.text ++ ['>']]

/-- What a directive is read as once it is rendered: an inclusion has become an import. -/
def Directive.readBack : Directive → Directive
  | .includeHeader header => .importTarget (.header header)
  | directive => directive

/-- A target is written as it is spelled. -/
theorem ImportTarget.Spells.render_eq {text : Text} {target : ImportTarget} (h : Spells text target) :
    target.render = text := by
  cases h <;> rfl

namespace Directive

variable {directive : Directive} {parts : List Text} {rendered : Text}

/-- What a directive becomes are its words and a semicolon, but for the bare word of an exported
declaration. -/
theorem words_of_render? (h : directive.render? = some rendered) :
    directive = .exportDeclaration ∧ rendered = exportWord ∨
      ∃ parts, directive.Words parts ∧ rendered = joinWith ' ' parts ++ [';'] := by
  cases directive with
  | moduleFragment fragment =>
    right
    cases fragment with
    | anonymous => cases h; exact ⟨_, .anonymous, rfl⟩
    | named name => cases h; exact ⟨_, .named name, rfl⟩
    | partition name => cases h; exact ⟨_, .partition name, rfl⟩
  | exportDeclaration => cases h; exact .inl ⟨rfl, rfl⟩
  | exportModule name => cases h; exact .inr ⟨_, .exportModule name, rfl⟩
  | exportImport name => cases h; exact .inr ⟨_, .exportImport name, rfl⟩
  | importTarget target => cases h; exact .inr ⟨_, .importTarget target, rfl⟩
  | includeHeader header =>
    cases h
    exact .inr ⟨_, .includeHeader header, by simp [joinWith, importWord]⟩
  | excludeBegin | excludeEnd | ignoreBegin | ignoreEnd | literal | unknown => cases h

/-- One blank between two words. -/
theorem isGap_blank : IsGap [' '] := ⟨by simp [Blanks, isBlank], List.cons_ne_nil _ _⟩

/-- The words of a directive make a statement, those of an import target if it is the reading of its own text. -/
theorem Words.statement (h : directive.Words parts)
    (htarget : ∀ target, directive = .importTarget target → ImportTarget.parse? target.render = some target) :
    Statement (joinWith ' ' parts) directive.readBack := by
  cases h with
  | anonymous => exact .anonymous
  | named name => exact .named isGap_blank name.spells
  | partition name => exact .partition isGap_blank.blanks blanks_nil name.spells
  | exportModule name => exact .exportModule isGap_blank isGap_blank name.spells
  | exportImport name => exact .exportImport isGap_blank isGap_blank name.spells
  | importTarget target =>
    exact .importTarget isGap_blank (ImportTarget.parse?_eq_some_iff.mp (htarget target rfl))
  | includeHeader header => exact .importTarget isGap_blank (.header header.spells)

/-- What a payload names is rendered as a statement with its semicolon, but for the bare word of an exported
declaration. -/
theorem statement_of_rendered {payload : Text} (h : (Directive.parse payload).render? = some rendered) :
    Directive.parse payload = .exportDeclaration ∧ rendered = exportWord ∨
      ∃ core, rendered = core ++ [';'] ∧ Statement core (Directive.parse payload) := by
  have hreading := Directive.parse_isReading payload
  generalize Directive.parse payload = directive at h hreading
  refine (words_of_render? h).imp_right fun ⟨parts, hwords, hrendered⟩ => ⟨_, hrendered, ?_⟩
  have hread : directive.readBack = directive := by
    cases directive with
    | includeHeader header => exact hreading.elim
    | _ => rfl
  have hstatement := hwords.statement ?_
  · rwa [hread] at hstatement
  · rintro target rfl
    obtain ⟨text, htext⟩ := hreading
    rw [(ImportTarget.parse?_eq_some_iff.mp htext).render_eq, htext]

/-- A directive that a payload names is what its rendering is read as. -/
theorem parse_rendered {payload : Text} (h : (Directive.parse payload).render? = some rendered) :
    Directive.parse rendered = Directive.parse payload := by
  rcases statement_of_rendered h with ⟨hexport, rfl⟩ | ⟨core, rfl, hcore⟩
  · rw [hexport]
    decide
  · exact hcore.parse_terminated

/-- A rendering starts and ends with a character that is no blank. -/
theorem isTrimmed_rendered {payload : Text} (h : (Directive.parse payload).render? = some rendered) :
    IsTrimmed rendered := by
  rcases statement_of_rendered h with ⟨-, rfl⟩ | ⟨core, rfl, hcore⟩
  · exact ⟨rfl, rfl⟩
  · have hmark : IsTrimmed [';'] := ⟨rfl, rfl⟩
    have hends := hcore.isCore.toIsTrimmed.append hmark []
    rwa [List.append_nil] at hends

/-- The characters of renderings. -/
def isRenderedChar (c : Char) : Bool := isTargetChar c || c == ' ' || c == ';' || c == '<' || c == '>'

theorem all_isRenderedChar_of_render? (h : directive.render? = some rendered) :
    rendered.all isRenderedChar = true := by
  have hmodule : ∀ name : ModuleName, name.text.all isRenderedChar = true := fun name =>
    List.all_eq_true.mpr fun c hc => by simp [isRenderedChar, name.isTargetChar_of_mem c hc]
  have hheader : ∀ name : HeaderName, name.text.all isRenderedChar = true := fun name =>
    List.all_eq_true.mpr fun c hc => by simp [isRenderedChar, name.isTargetChar_of_mem c hc]
  have htarget : ∀ target : ImportTarget, target.render.all isRenderedChar = true := by
    intro target
    cases target with
    | module name => exact hmodule name
    | header name => simp only [ImportTarget.render, List.all_append, List.all_cons, hheader]; rfl
    | bracketedModule name => simp only [ImportTarget.render, List.all_append, List.all_cons, hmodule]; rfl
  cases directive with
  | moduleFragment fragment =>
    cases h
    cases fragment <;> simp only [ModuleFragment.render, List.all_append, hmodule] <;> rfl
  | exportDeclaration => cases h; rfl
  | exportModule name | exportImport name => cases h; simp only [List.all_append, hmodule]; rfl
  | importTarget target => cases h; simp only [List.all_append, htarget]; rfl
  | includeHeader header => cases h; simp only [List.all_append, hheader]; rfl
  | excludeBegin | excludeEnd | ignoreBegin | ignoreEnd | literal | unknown => cases h

/-- A character that renderings are not made of is in none. -/
theorem notMem_of_render? (h : directive.render? = some rendered) {c : Char}
    (hc : isRenderedChar c = false) : c ∉ rendered := by
  intro hmem
  rw [List.all_eq_true.mp (all_isRenderedChar_of_render? h) c hmem] at hc
  cases hc

/-- A rendering starts with a letter, so it does not go on with a literal block behind an opener. -/
theorem head?_render? (h : directive.render? = some rendered) : rendered.head?.any Char.isAlpha = true := by
  cases directive with
  | moduleFragment fragment => cases fragment <;> cases h <;> rfl
  | exportDeclaration | exportModule | exportImport | importTarget | includeHeader => cases h; rfl
  | excludeBegin | excludeEnd | ignoreBegin | ignoreEnd | literal | unknown => cases h

end Directive

namespace Tag

/-- A comment without a star does not end. -/
theorem splitClose_eq_none {comment : Text} (h : '*' ∉ comment) : splitClose comment = none := by
  induction comment with
  | nil => rfl
  | cons c rest ih =>
    obtain ⟨hc, hrest⟩ := List.ne_and_not_mem_of_not_mem_cons h
    rw [splitClose, ih hrest]
    · rfl
    · rintro more rfl
      exact absurd rfl hc

end Tag

/-- A text that is one bracket tag has that tag and no other. -/
theorem scanTags_bracket {payload : Text} (htrimmed : IsTrimmed payload) (hstar : '*' ∉ payload)
    (hhead : payload.head? ≠ some '[') :
    scanTags (Tag.bracketOpen ++ payload ++ Tag.bracketEnd ++ Tag.commentClose) =
      [⟨.parse payload, ⟨0, size (Tag.bracketOpen ++ payload ++ Tag.bracketEnd ++ Tag.commentClose)⟩, 0,
        payload⟩] := by
  have hclose : Tag.splitClose (payload ++ Tag.bracketEnd) = none :=
    Tag.splitClose_eq_none (by simpa [Tag.bracketEnd] using hstar)
  have hscan := scanFrom_bracketOpen hhead hclose (Nat.le_refl 0) []
  have htag : Tag.ofContent payload 0 = ⟨.parse payload, ⟨0, size (Tag.bracketed payload)⟩, 0, payload⟩ := by
    rw [Tag.ofContent, htrimmed.trim_eq, Nat.zero_add]
  have hwhole : Tag.bracketed payload = Tag.bracketOpen ++ (payload ++ Tag.bracketEnd ++ Tag.commentClose) := by
    simp only [Tag.bracketed, List.append_assoc]
  -- Behind its opener the text has no further tag, since that would start behind the end of the text.
  have hrest : scanFrom (size Tag.bracketOpen) (size (Tag.bracketed payload))
      (payload ++ Tag.bracketEnd ++ Tag.commentClose) = [] := by
    refine List.eq_nil_iff_forall_not_mem.mpr fun tag hmem => ?_
    have hstands := standsIn_of_mem_scanFrom hmem Tag.bracketOpen rfl
    have hle := resume_le_of_mem_scanFrom hmem
    have hlt := hstands.start_lt_stop
    have hsize := hstands.isBoundary_stop.le_size
    rw [← hwhole] at hsize
    omega
  rw [List.append_nil, List.append_nil, Nat.zero_add, Nat.zero_add, hrest, htag] at hscan
  exact hscan

/-- Rendering a directive and scanning it back gives the directive again.

When a payload names a directive that has a rendering, the bracket tag around the rendering is one tag, which
covers the whole text and has the same directive; the rendering as a payload names it too. The rendering of
the inclusion of a header is read as the import of that header. -/
theorem rendered_scans_back :
    (∀ payload rendered, (Directive.parse payload).render? = some rendered →
      scanTags (Tag.bracketOpen ++ rendered ++ Tag.bracketEnd ++ Tag.commentClose) =
        [⟨.parse payload, ⟨0, size (Tag.bracketOpen ++ rendered ++ Tag.bracketEnd ++ Tag.commentClose)⟩, 0,
          rendered⟩] ∧
      Directive.parse rendered = Directive.parse payload) ∧
    ∀ text header, HeaderName.parse? text = some header →
      ∃ rendered, (Directive.includeHeader header).render? = some rendered ∧
        Directive.parse rendered = .importTarget (.header header) := by
  refine ⟨fun payload rendered h => ?_, fun text header _ => ⟨_, rfl, ?_⟩⟩
  · have hparse := Directive.parse_rendered h
    refine ⟨?_, hparse⟩
    have hhead := Directive.head?_render? h
    have hstar : '*' ∉ rendered := Directive.notMem_of_render? h rfl
    rw [scanTags_bracket (Directive.isTrimmed_rendered h) hstar ?_, hparse]
    intro hbracket
    rw [hbracket] at hhead
    cases hhead
  · have hwords : (Directive.includeHeader header).Words [importWord, '<' :: header.text ++ ['>']] :=
      .includeHeader header
    have hparse := (hwords.statement fun target htarget => by cases htarget).parse_terminated
    rw [Directive.readBack] at hparse
    rw [← hparse]
    simp [joinWith, importWord]

/-- A payload with the name of a module, spaced as it need not be. -/
def spacedPayload : Text := " export  module\tams.game:Camera ; ".toList

theorem rendered_scans_back_spacedPayload :
    (Directive.parse spacedPayload).render? = some "export module ams.game:Camera;".toList ∧
    (scanTags "/*[export module ams.game:Camera;]*/".toList).map Tag.span = [⟨0, 36⟩] ∧
    (HeaderName.parse? "ams/spatial/Matrix.hpp".toList).isSome = true ∧
    ∃ header rendered, HeaderName.parse? "ams/spatial/Matrix.hpp".toList = some header ∧
      (Directive.includeHeader header).render? = some rendered ∧
      Directive.parse rendered = .importTarget (.header header) := by
  have hrendered : (Directive.parse spacedPayload).render? = some "export module ams.game:Camera;".toList := by
    decide +kernel
  have hheader : (HeaderName.parse? "ams/spatial/Matrix.hpp".toList).isSome = true := by decide +kernel
  obtain ⟨header, hparse⟩ := Option.isSome_iff_exists.mp hheader
  obtain ⟨rendered, hrender, hread⟩ := rendered_scans_back.2 _ header hparse
  refine ⟨hrendered, ?_, hheader, header, rendered, hparse, hrender, hread⟩
  have hscan := (rendered_scans_back.1 spacedPayload _ hrendered).1
  exact (congrArg (List.map Tag.span) hscan).trans (by decide +kernel)

end TaggedHeader
