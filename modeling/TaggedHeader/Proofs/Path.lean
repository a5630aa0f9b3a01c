import Mathlib.Data.Char
import Mathlib.Data.List.Lex
import Mathlib.Data.List.TakeWhile
import Mathlib.Data.Prod.Lex
import TaggedHeader.Path

/-!
# The steps of a path

A path is resolved and compared by its steps. Joining a name to a path adds one step, whatever the spelling of
the path, and the steps of a path are names without slashes. Paths are listed in the dictionary order of their
steps.
-/

namespace TaggedHeader

open Text

/-- A name that a file or directory can have. -/
structure IsFileName (name : FileName) : Prop where
  notIdle : Path.isIdle name = false
  notParent : name ≠ ['.', '.']
  noSlash : '/' ∉ name

instance (name : FileName) : Decidable (IsFileName name) :=
  decidable_of_iff (Path.isIdle name = false ∧ name ≠ ['.', '.'] ∧ '/' ∉ name)
    ⟨fun h => ⟨h.1, h.2.1, h.2.2⟩, fun h => ⟨h.notIdle, h.notParent, h.noSlash⟩⟩

namespace Text

theorem splitOn_append (separator : Char) (left right : Text) :
    splitOn separator (left ++ separator :: right) = splitOn separator left ++ splitOn separator right := by
  induction left with
  | nil => simp [splitOn]
  | cons c rest ih =>
    rw [List.cons_append, splitOn, splitOn, ih]
    split
    · rfl
    · cases hparts : splitOn separator rest with
      | nil => exact absurd hparts (splitOn_ne_nil separator rest)
      | cons part parts => rfl

theorem splitOn_of_notMem {separator : Char} {text : Text} (h : separator ∉ text) :
    splitOn separator text = [text] := by
  induction text with
  | nil => rfl
  | cons c rest ih =>
    obtain ⟨hc, hrest⟩ := List.ne_and_not_mem_of_not_mem_cons h
    rw [splitOn, if_neg (Ne.symm hc), ih hrest]

/-- No part of a text holds the separator. -/
theorem notMem_of_mem_splitOn {separator : Char} {text part : Text} (h : part ∈ splitOn separator text) :
    separator ∉ part := by
  induction text generalizing part with
  | nil =>
    rw [splitOn, List.mem_singleton] at h
    rw [h]
    exact List.not_mem_nil
  | cons c rest ih =>
    rw [splitOn] at h
    split at h
    · rcases List.mem_cons.mp h with rfl | hpart
      · exact List.not_mem_nil
      · exact ih hpart
    · rename_i hc
      cases hparts : splitOn separator rest with
      | nil => exact absurd hparts (splitOn_ne_nil separator rest)
      | cons first parts =>
        rw [hparts] at h ih
        rcases List.mem_cons.mp h with rfl | hpart
        · exact List.not_mem_cons_of_ne_of_not_mem (Ne.symm hc) (ih List.mem_cons_self)
        · exact ih (List.mem_cons_of_mem _ hpart)

end Text

namespace Path

theorem stepsOf_append (left right : List Text) : stepsOf (left ++ right) = stepsOf left ++ stepsOf right := by
  simp [stepsOf]

/-- The step that a name stands for. -/
theorem stepsOf_name {name : FileName} (h : IsFileName name) : stepsOf [name] = [.normal name] := by
  simp [stepsOf, h.notIdle, h.notParent]

/-- The names among the steps of parts without slashes. -/
theorem isFileName_of_mem_stepsOf {parts : List Text} (hparts : ∀ part ∈ parts, '/' ∉ part) {name : FileName}
    (h : Component.normal name ∈ stepsOf parts) : IsFileName name := by
  obtain ⟨part, hpart, hstep⟩ := List.mem_map.mp h
  obtain ⟨hmem, hidle⟩ := List.mem_filter.mp hpart
  split at hstep
  · cases hstep
  · rename_i hparent
    cases hstep
    exact ⟨(Bool.not_eq_true' _).mp hidle, hparent, hparts _ hmem⟩

/-- The steps of a path, by the first part of its text and the others. -/
theorem components_of_splitOn {path : Path} {first : Text} {parts : List Text}
    (h : splitOn '/' path.text = first :: parts) : path.components =
      if first = [] ∧ parts ≠ [] then .root :: stepsOf parts
      else if first = ['.'] then .current :: stepsOf parts
      else stepsOf (first :: parts) := by
  unfold components
  rw [h]

/-- The names among the steps of a path are names of files. -/
theorem isFileName_of_mem_components (path : Path) {name : FileName}
    (h : Component.normal name ∈ path.components) : IsFileName name := by
  have hparts : ∀ part ∈ splitOn '/' path.text, '/' ∉ part := fun part => notMem_of_mem_splitOn
  cases hsplit : splitOn '/' path.text with
  | nil => exact absurd hsplit (splitOn_ne_nil '/' path.text)
  | cons first parts =>
    rw [hsplit] at hparts
    have hothers := (List.forall_mem_cons.mp hparts).2
    rw [components_of_splitOn hsplit] at h
    split at h
    · exact isFileName_of_mem_stepsOf hothers ((List.mem_cons.mp h).resolve_left Component.noConfusion)
    · split at h
      · exact isFileName_of_mem_stepsOf hothers ((List.mem_cons.mp h).resolve_left Component.noConfusion)
      · exact isFileName_of_mem_stepsOf hparts h

/-- Joining a part without slashes to a path puts it behind the parts of the path, in place of the empty part
behind a last slash. -/
theorem exists_splitOn_join (base : Path) : ∃ front : List Text,
    (base.text ≠ [] ∧ splitOn '/' base.text = front ∨ splitOn '/' base.text = front ++ [[]]) ∧
      ∀ name : Text, '/' ∉ name → splitOn '/' (base.join ⟨name⟩).text = front ++ [name] := by
  have hrelative : ∀ name : Text, '/' ∉ name → (⟨name⟩ : Path).isAbsolute = false := fun name hname => by
    rw [isAbsolute, decide_eq_false_iff_not]
    exact fun hhead => hname (List.mem_of_head? hhead)
  by_cases hempty : base.text = []
  · refine ⟨[], .inr (by rw [hempty, splitOn]; rfl), fun name hname => ?_⟩
    rw [join, hrelative name hname, if_neg Bool.false_ne_true]
    simp [hempty, splitOn_of_notMem hname]
  · by_cases hslash : base.text.getLast? = some '/'
    · obtain ⟨body, hbody⟩ := List.getLast?_eq_some_iff.mp hslash
      refine ⟨splitOn '/' body, .inr (by rw [hbody, splitOn_append, splitOn]), fun name hname => ?_⟩
      have hjoin : base.text ++ name = body ++ '/' :: name := by rw [hbody, List.append_assoc]; rfl
      rw [join, hrelative name hname, if_neg Bool.false_ne_true]
      simp only [hempty, hslash, decide_false, decide_true, Bool.false_or, if_true]
      rw [hjoin, splitOn_append, splitOn_of_notMem hname]
    · refine ⟨splitOn '/' base.text, .inl ⟨hempty, rfl⟩, fun name hname => ?_⟩
      rw [join, hrelative name hname, if_neg Bool.false_ne_true]
      simp only [hempty, hslash, decide_false, Bool.false_or, Bool.false_eq_true, if_false]
      rw [splitOn_append, splitOn_of_notMem hname]

/-- Joining a part that says something to a path adds its step. -/
theorem components_join_part (base : Path) {name : Text} (hname : '/' ∉ name) (hidle : isIdle name = false) :
    (base.join ⟨name⟩).components = base.components ++ stepsOf [name] := by
  have hnonempty : name ≠ [] := by
    rintro rfl
    cases hidle
  have hdot : name ≠ ['.'] := by
    rintro rfl
    cases hidle
  have hnothing : stepsOf [[]] = [] := rfl
  obtain ⟨front, hbase, hsplit⟩ := base.exists_splitOn_join
  have hsplit := hsplit name hname
  cases front with
  | nil =>
    have hbase : splitOn '/' base.text = [[]] := hbase.resolve_left fun h => splitOn_ne_nil '/' base.text h.2
    rw [components_of_splitOn hsplit, components_of_splitOn hbase]
    simp [hnonempty, hdot, hnothing]
  | cons first parts =>
    rw [List.cons_append] at hsplit
    rcases hbase with ⟨hsome, hbase⟩ | hbase
    · have hparts : first = [] → parts ≠ [] := by
        rintro rfl rfl
        have hjoin := joinWith_splitOn '/' base.text
        rw [hbase] at hjoin
        exact hsome hjoin.symm
      rw [components_of_splitOn hsplit, components_of_splitOn hbase]
      simp only [← List.cons_append, stepsOf_append]
      by_cases hfirst : first = []
      · simp [hfirst, hparts hfirst]
      · simp only [hfirst, false_and, if_false]
        split <;> rfl
    · rw [List.cons_append] at hbase
      rw [components_of_splitOn hsplit, components_of_splitOn hbase]
      simp only [← List.cons_append, stepsOf_append, hnothing, List.append_nil]
      simp only [List.cons_append, List.append_eq_nil_iff, List.cons_ne_nil, and_false, not_false_iff, ne_eq]
      split
      · rfl
      · split <;> rfl

/-- A path that a part which says something was joined to asks for no directory. -/
theorem asksForDirectory_join (base : Path) {name : Text} (hname : '/' ∉ name) (hidle : isIdle name = false) :
    (base.join ⟨name⟩).asksForDirectory = false := by
  obtain ⟨front, -, hsplit⟩ := base.exists_splitOn_join
  rw [asksForDirectory, hsplit name hname, List.getLast?_concat]
  exact hidle

theorem components_join (base : Path) {name : FileName} (h : IsFileName name) :
    (base.join ⟨name⟩).components = base.components ++ [.normal name] := by
  rw [components_join_part base h.noSlash h.notIdle, stepsOf_name h]

/-- What starts with a name is not absolute. -/
theorem isAbsolute_name_append {name : FileName} (h : IsFileName name) (rest : Text) :
    (⟨name ++ rest⟩ : Path).isAbsolute = false := by
  cases name with
  | nil => exact absurd h.notIdle (by decide)
  | cons c name => simp [isAbsolute, (List.ne_and_not_mem_of_not_mem_cons h.noSlash).1.symm]

/-- Joining two names with a slash between them is joining one after the other. -/
theorem join_join (base : Path) {left right : FileName} (hleft : IsFileName left) (hright : IsFileName right) :
    base.join ⟨left ++ '/' :: right⟩ = (base.join ⟨left⟩).join ⟨right⟩ := by
  have hone : ∀ {name : FileName}, IsFileName name → (⟨name⟩ : Path).isAbsolute = false := fun {name} h =>
    List.append_nil name ▸ isAbsolute_name_append h []
  have hne : left ≠ [] := fun hempty => absurd hleft.notIdle (by simp [hempty, isIdle])
  have hlast : left.getLast? ≠ some '/' := fun hlast => hleft.noSlash (List.mem_of_getLast? hlast)
  have hlast' : ('/' :: left).getLast? ≠ some '/' := by rwa [List.getLast?_cons_of_ne_nil hne]
  simp only [join, isAbsolute_name_append hleft, hone hleft, hone hright]
  split_ifs <;> simp_all

/-- Whether a path goes on from another one by names. -/
structure IsBelow (path base : Path) (names : List FileName) : Prop where
  components : path.components = base.components ++ names.map .normal
  nonempty : names ≠ []
  notAsks : path.asksForDirectory = false

/-- What asks for no directory says something. -/
theorem text_ne_nil_of_asksForDirectory {path : Path} (h : path.asksForDirectory = false) : path.text ≠ [] := by
  intro hempty
  rw [asksForDirectory, hempty] at h
  cases h

theorem IsBelow.text_ne_nil {path base : Path} {names : List FileName} (h : path.IsBelow base names) :
    path.text ≠ [] :=
  text_ne_nil_of_asksForDirectory h.notAsks

theorem isBelow_join (base : Path) {name : FileName} (h : IsFileName name) : (base.join ⟨name⟩).IsBelow base [name] :=
  ⟨base.components_join h, List.cons_ne_nil _ _, base.asksForDirectory_join h.noSlash h.notIdle⟩

theorem IsBelow.join {path base : Path} {names : List FileName} (h : path.IsBelow base names) {name : FileName}
    (hname : IsFileName name) : (path.join ⟨name⟩).IsBelow base (names ++ [name]) :=
  ⟨by rw [path.components_join hname, h.components, List.map_append, List.append_assoc]; rfl,
    List.concat_ne_nil name names, path.asksForDirectory_join hname.noSlash hname.notIdle⟩

end Path

/-! ## The order of paths -/

/-- Lists are compared by their first items, then by what follows. -/
theorem cons_le_cons_iff {α : Type} [LinearOrder α] {first second : α} {left right : List α} :
    first :: left ≤ second :: right ↔ first < second ∨ first = second ∧ left ≤ right := by
  rw [← not_lt, List.cons_lt_cons_iff, not_or, not_and, not_lt, not_lt]
  rcases lt_trichotomy first second with hlt | rfl | hlt
  · simp [hlt, hlt.le, hlt.ne']
  · simp
  · simp [hlt.not_ge, hlt.not_gt, hlt.ne']

/-- Texts are compared like words in a dictionary. -/
theorem Text.precedes_iff {left right : Text} : Text.precedes left right = true ↔ left ≤ right := by
  induction left generalizing right with
  | nil => simpa [Text.precedes] using not_lt.mp (List.not_lt_nil right)
  | cons first left ih =>
    cases right with
    | nil => simp [Text.precedes]
    | cons second right => simp [Text.precedes, cons_le_cons_iff, ih]

namespace Path

/-- What a step is compared by: its kind, then the name. -/
def Component.key : Component → ℕ ×ₗ Text
  | .normal name => toLex (3, name)
  | step => toLex (step.rank, [])

theorem Component.key_injective : Function.Injective Component.key := by
  intro first second h
  cases first <;> cases second <;> cases h <;> rfl

theorem Component.precedes_iff {first second : Component} :
    first.precedes second = true ↔ first.key ≤ second.key := by
  cases first <;> cases second <;>
    simp [Component.precedes, Component.key, Component.rank, Prod.Lex.toLex_le_toLex, Text.precedes_iff]

theorem stepsPrecede_iff {left right : List Component} :
    stepsPrecede left right = true ↔ left.map Component.key ≤ right.map Component.key := by
  induction left generalizing right with
  | nil => simpa [stepsPrecede] using not_lt.mp (List.not_lt_nil (right.map Component.key))
  | cons first left ih =>
    cases right with
    | nil => simp [stepsPrecede]
    | cons second right =>
      rw [List.map_cons, List.map_cons, cons_le_cons_iff, stepsPrecede]
      split
      · rename_i heq
        simp [heq, ih]
      · rename_i hne
        have hkey : first.key ≠ second.key := fun heq => hne (Component.key_injective heq)
        simp [hkey, Component.precedes_iff, lt_iff_le_and_ne]

theorem sameAs_iff {first second : Path} : first.sameAs second = true ↔ first.components = second.components :=
  decide_eq_true_iff

theorem sameAs_comm (first second : Path) : first.sameAs second = second.sameAs first := by
  rw [Bool.eq_iff_iff, sameAs_iff, sameAs_iff]
  exact eq_comm

variable {first second third : Path}

/-- Paths are compared like words in a dictionary, with their steps for letters. -/
theorem precedes_iff : first.precedes second = true ↔
    first.components.map Component.key ≤ second.components.map Component.key :=
  stepsPrecede_iff

theorem precedes_total (first second : Path) : (first.precedes second || second.precedes first) = true := by
  rw [Bool.or_eq_true, precedes_iff, precedes_iff]
  exact le_total _ _

theorem precedes_trans (h : first.precedes second = true) (h' : second.precedes third = true) :
    first.precedes third = true :=
  precedes_iff.mpr (le_trans (precedes_iff.mp h) (precedes_iff.mp h'))

/-- Only paths with the same steps precede one another. -/
theorem sameAs_of_precedes (h : first.precedes second = true) (h' : second.precedes first = true) :
    first.sameAs second = true := by
  have hkeys := le_antisymm (precedes_iff.mp h) (precedes_iff.mp h')
  exact sameAs_iff.mpr (Component.key_injective.list_map hkeys)

end Path
end TaggedHeader
