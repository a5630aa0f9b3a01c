import Mathlib.Data.List.TakeWhile
import TaggedHeader.Name
import TaggedHeader.Proofs.Text.Words

/-!
# How names are spelled

Names of modules and of headers are made of letters, digits and a few signs. None of them is a blank, a
bracket or a star, so a name stays in one piece wherever it is written. `ModuleName.Spells` and
`HeaderName.Spells` say which texts are names by how these are put together, and readers of names accept
exactly those.
-/

namespace TaggedHeader

open Text

/-- The characters of which the names of modules and headers are made. -/
def isTargetChar (c : Char) : Bool := isIdentifierChar c || c == '.' || c == ':' || c == '/'

theorem isTargetChar_of_isIdentifierChar {c : Char} (h : isIdentifierChar c = true) : isTargetChar c = true := by
  simp [isTargetChar, h]

/-- These characters lie between the dot and the letter `z`. -/
theorem toNat_of_isTargetChar {c : Char} (h : isTargetChar c = true) : 46 ≤ c.toNat ∧ c.toNat ≤ 122 := by
  have hranges : isTargetChar c = (decide (c.val ≥ 65 ∧ c.val ≤ 90) || (c.val ≥ 97 && c.val ≤ 122) ||
      (c.val ≥ 48 && c.val ≤ 57) || c == '_' || c == '.' || c == ':' || c == '/') := rfl
  rw [hranges] at h
  simp only [Bool.or_eq_true, Bool.and_eq_true, decide_eq_true_eq, beq_iff_eq, ge_iff_le,
    UInt32.le_iff_toNat_le] at h
  rcases h with ((((((h | h) | h) | rfl) | rfl) | rfl) | rfl)
  · exact ⟨(by decide : 46 ≤ 65).trans h.1, h.2.trans (by decide : 90 ≤ 122)⟩
  · exact ⟨(by decide : 46 ≤ 97).trans h.1, h.2⟩
  · exact ⟨(by decide : 46 ≤ 48).trans h.1, h.2.trans (by decide : 57 ≤ 122)⟩
  all_goals decide

theorem isBlank_eq_false_of_isTargetChar {c : Char} (h : isTargetChar c = true) : isBlank c = false := by
  obtain ⟨hlow, hhigh⟩ := toNat_of_isTargetChar h
  simp only [isBlank, Bool.or_eq_false_iff, Bool.and_eq_false_iff, decide_eq_false_iff_not,
    beq_eq_false_iff_ne]
  omega

theorem ModuleName.isTargetChar_of_mem (name : ModuleName) : ∀ c ∈ name.text, isTargetChar c = true := by
  intro c hc
  have hchar := List.all_eq_true.mp (Bool.and_eq_true_iff.mp name.valid).2 c hc
  exact Bool.or_eq_true_iff.mpr (.inl hchar)

/-- A module name starts with an identifier character. -/
theorem ModuleName.exists_head (name : ModuleName) :
    ∃ c rest, name.text = c :: rest ∧ isIdentifierChar c = true := by
  have hhead := (Bool.and_eq_true_iff.mp (Bool.and_eq_true_iff.mp name.valid).1).1
  cases htext : name.text with
  | nil => simp [htext] at hhead
  | cons c rest => exact ⟨c, rest, rfl, by simpa [htext] using hhead⟩

/-- A module name is one word. -/
theorem ModuleName.isWord (name : ModuleName) : IsWord name.text := by
  obtain ⟨c, rest, htext, -⟩ := name.exists_head
  refine ⟨by rw [htext]; exact List.cons_ne_nil c rest, fun d hd => ?_⟩
  exact isBlank_eq_false_of_isTargetChar (name.isTargetChar_of_mem d hd)

namespace HeaderName

/-- The parts around the last dot of a text, and the dot, are the text. -/
theorem eq_append_of_splitLastDot {text stem extension : Text}
    (h : splitLastDot text = (stem, some extension)) : text = stem ++ '.' :: extension := by
  unfold splitLastDot at h
  split at h
  · rename_i hdot
    obtain ⟨rfl, hextension⟩ := Prod.mk.inj h
    obtain rfl := Option.some.inj hextension
    have hsplit := List.takeWhile_append_dropWhile (p := (· != '.')) (l := text.reverse)
    cases hrest : text.reverse.dropWhile (· != '.') with
    | nil =>
      have hall := List.dropWhile_eq_nil_iff.mp hrest '.' (List.mem_reverse.mpr (List.contains_iff_mem.mp hdot))
      cases hall
    | cons d rest =>
      have hd : d = '.' := by
        have hhead := List.head?_dropWhile_not (· != '.') text.reverse
        simpa [hrest] using hhead
      rw [hrest, hd] at hsplit
      have htext := congrArg List.reverse hsplit
      rw [List.reverse_reverse] at htext
      refine htext.symm.trans ?_
      simp
  · cases h

/-- A text that is not split has no part behind a dot. -/
theorem eq_of_splitLastDot {text stem : Text} (h : splitLastDot text = (stem, none)) : text = stem := by
  unfold splitLastDot at h
  split at h
  · cases h
  · exact (Prod.mk.inj h).1

theorem isTargetChar_of_isHeaderStem {stem : Text} (h : isHeaderStem stem = true) :
    ∀ c ∈ stem, isTargetChar c = true := by
  intro c hc
  have hchar := List.all_eq_true.mp (Bool.and_eq_true_iff.mp h).2 c hc
  rw [isHeaderStemChar, Bool.or_eq_true] at hchar
  exact hchar.elim isTargetChar_of_isIdentifierChar fun hslash => Bool.or_eq_true_iff.mpr (.inr hslash)

theorem isTargetChar_of_isHeaderExtension {extension : Text} (h : isHeaderExtension extension = true) :
    ∀ c ∈ extension, isTargetChar c = true := by
  intro c hc
  have hletter := List.all_eq_true.mp (Bool.and_eq_true_iff.mp h).2 c hc
  exact isTargetChar_of_isIdentifierChar (by simp [isIdentifierChar, Char.isAlphanum, hletter])

theorem isTargetChar_of_mem (header : HeaderName) : ∀ c ∈ header.text, isTargetChar c = true := by
  have hvalid := header.valid
  intro c hc
  unfold isHeaderName at hvalid
  split at hvalid
  · rename_i stem hsplit
    exact isTargetChar_of_isHeaderStem hvalid c (eq_of_splitLastDot hsplit ▸ hc)
  · rename_i stem extension hsplit
    obtain ⟨hstem, hextension⟩ := Bool.and_eq_true_iff.mp hvalid
    rw [eq_append_of_splitLastDot hsplit] at hc
    rcases List.mem_append.mp hc with hc | hc
    · exact isTargetChar_of_isHeaderStem hstem c hc
    · rcases List.mem_cons.mp hc with rfl | hc
      · rfl
      · exact isTargetChar_of_isHeaderExtension hextension c hc

end HeaderName

/-! ## How names are put together -/

/-- The spelling of a name: a character of the first class, and if more follow, one of the last class at the end and
any of the inner class in between. -/
inductive SpellsName (isFirst isInner isLast : Char → Bool) : Text → Prop
  | short {first : Char} (hfirst : isFirst first = true) : SpellsName isFirst isInner isLast [first]
  | long {first last : Char} {inner : Text} (hfirst : isFirst first = true)
    (hinner : ∀ c ∈ inner, isInner c = true) (hlast : isLast last = true) :
    SpellsName isFirst isInner isLast (first :: inner ++ [last])

/-- A name is recognised by its ends and its characters, where the classes grow from the first to the inner one. -/
theorem spellsName_iff {isFirst isInner isLast : Char → Bool} (hfirst : ∀ c, isFirst c = true → isLast c = true)
    (hlast : ∀ c, isLast c = true → isInner c = true) {text : Text} :
    SpellsName isFirst isInner isLast text ↔
      (text.head?.any isFirst && text.getLast?.any isLast && text.all isInner) = true := by
  constructor
  · intro h
    cases h with
    | short hc => simp [hc, hfirst _ hc, hlast _ (hfirst _ hc)]
    | @long first last inner hc hinner hd =>
      have hall : inner.all isInner = true := List.all_eq_true.mpr hinner
      rw [List.getLast?_concat, List.all_append, List.all_cons, hall]
      simp [hc, hd, hlast _ (hfirst _ hc), hlast _ hd]
  · intro h
    obtain ⟨hends, hall⟩ := Bool.and_eq_true_iff.mp h
    obtain ⟨hhead, hend⟩ := Bool.and_eq_true_iff.mp hends
    cases text with
    | nil => cases hhead
    | cons first rest =>
      rcases List.eq_nil_or_concat rest with rfl | ⟨inner, last, rfl⟩
      · exact .short (by simpa using hhead)
      · rw [List.concat_eq_append] at hend hall ⊢
        rw [← List.cons_append, List.getLast?_concat] at hend
        refine .long (by simpa using hhead) (fun c hc => List.all_eq_true.mp hall c ?_) hend
        exact List.mem_cons_of_mem _ (List.mem_append_left _ hc)

/-- The spelling of a module name, `[A-Za-z0-9_]([A-Za-z0-9_.:]*[A-Za-z0-9_])?`. -/
def ModuleName.Spells : Text → Prop := SpellsName isIdentifierChar isModuleNameChar isIdentifierChar

theorem isModuleName_iff {text : Text} : isModuleName text = true ↔ ModuleName.Spells text :=
  (spellsName_iff (fun _ hc => hc) fun c hc => by simp [isModuleNameChar, hc]).symm

theorem ModuleName.spells (name : ModuleName) : ModuleName.Spells name.text := isModuleName_iff.mp name.valid

/-- The module name that a text spells. -/
def ModuleName.ofSpells {text : Text} (h : ModuleName.Spells text) : ModuleName := ⟨text, isModuleName_iff.mpr h⟩

theorem ModuleName.parse?_eq_some_iff {text : Text} {name : ModuleName} :
    ModuleName.parse? text = some name ↔ ∃ h : ModuleName.Spells text, name = .ofSpells h := by
  unfold ModuleName.parse?
  constructor
  · intro h
    split at h
    · rename_i hvalid
      exact ⟨isModuleName_iff.mp hvalid, (Option.some.inj h).symm⟩
    · cases h
  · rintro ⟨h, rfl⟩
    rw [dif_pos (isModuleName_iff.mpr h)]
    rfl

namespace HeaderName

/-- The spelling of a header name up to its extension, `[A-Za-z_]([A-Za-z0-9_/]*[A-Za-z0-9_])?`. -/
def SpellsStem : Text → Prop := SpellsName (fun c => c.isAlpha || c == '_') isHeaderStemChar isIdentifierChar

/-- The spelling of a header name: a stem, and possibly one dot with one to four letters. -/
inductive Spells : Text → Prop
  | plain {stem : Text} (hstem : SpellsStem stem) : Spells stem
  | extended {stem extension : Text} (hstem : SpellsStem stem)
    (hlength : 1 ≤ extension.length ∧ extension.length ≤ 4) (hletters : ∀ c ∈ extension, c.isAlpha = true) :
    Spells (stem ++ '.' :: extension)

theorem isHeaderStem_iff {text : Text} : isHeaderStem text = true ↔ SpellsStem text := by
  refine (spellsName_iff (fun c hc => ?_) fun c hc => by simp [isHeaderStemChar, hc]).symm
  rcases Bool.or_eq_true_iff.mp hc with hletter | hscore
  · simp [isIdentifierChar, Char.isAlphanum, hletter]
  · simp [isIdentifierChar, hscore]

theorem isHeaderExtension_iff {text : Text} : isHeaderExtension text = true ↔
    (1 ≤ text.length ∧ text.length ≤ 4) ∧ ∀ c ∈ text, c.isAlpha = true := by
  simp [isHeaderExtension, and_assoc]

/-- A text without a dot is not split. -/
theorem splitLastDot_of_notMem {text : Text} (h : '.' ∉ text) : splitLastDot text = (text, none) := by
  simp [splitLastDot, h]

/-- A text is split at a dot behind which there is none. -/
theorem splitLastDot_append (stem : Text) {extension : Text} (h : '.' ∉ extension) :
    splitLastDot (stem ++ '.' :: extension) = (stem, some extension) := by
  have hreverse : (stem ++ '.' :: extension).reverse = extension.reverse ++ '.' :: stem.reverse := by simp
  have hall : ∀ c ∈ extension.reverse, (c != '.') = true := fun c hc =>
    bne_iff_ne.mpr fun heq => h (heq ▸ List.mem_reverse.mp hc)
  rw [splitLastDot, if_pos (by simp), hreverse, List.dropWhile_append_of_pos hall,
    List.takeWhile_append_of_pos hall]
  simp

theorem isHeaderName_iff {text : Text} : isHeaderName text = true ↔ Spells text := by
  constructor
  · intro h
    unfold isHeaderName at h
    split at h
    · rename_i stem hsplit
      rw [eq_of_splitLastDot hsplit]
      exact .plain (isHeaderStem_iff.mp h)
    · rename_i stem extension hsplit
      obtain ⟨hstem, hextension⟩ := Bool.and_eq_true_iff.mp h
      obtain ⟨hlength, hletters⟩ := isHeaderExtension_iff.mp hextension
      rw [eq_append_of_splitLastDot hsplit]
      exact .extended (isHeaderStem_iff.mp hstem) hlength hletters
  · intro h
    cases h with
    | plain hstem =>
      have hstem := isHeaderStem_iff.mpr hstem
      have hdot : '.' ∉ text := fun hmem => by
        have hall := List.all_eq_true.mp (Bool.and_eq_true_iff.mp hstem).2 _ hmem
        cases hall
      rw [isHeaderName, splitLastDot_of_notMem hdot]
      exact hstem
    | extended hstem hlength hletters =>
      rename_i stem extension
      have hdot : '.' ∉ extension := fun hmem => by
        have hletter := hletters _ hmem
        cases hletter
      rw [isHeaderName, splitLastDot_append stem hdot]
      exact Bool.and_eq_true_iff.mpr ⟨isHeaderStem_iff.mpr hstem, isHeaderExtension_iff.mpr ⟨hlength, hletters⟩⟩

theorem spells (name : HeaderName) : Spells name.text := isHeaderName_iff.mp name.valid

/-- The header name that a text spells. -/
def ofSpells {text : Text} (h : Spells text) : HeaderName := ⟨text, isHeaderName_iff.mpr h⟩

theorem parse?_eq_some_iff {text : Text} {name : HeaderName} :
    parse? text = some name ↔ ∃ h : Spells text, name = .ofSpells h := by
  unfold parse?
  constructor
  · intro h
    split at h
    · rename_i hvalid
      exact ⟨isHeaderName_iff.mp hvalid, (Option.some.inj h).symm⟩
    · cases h
  · rintro ⟨h, rfl⟩
    rw [dif_pos (isHeaderName_iff.mpr h)]
    rfl

end HeaderName
end TaggedHeader
