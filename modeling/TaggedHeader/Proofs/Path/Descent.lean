import Mathlib.Data.List.Induction
import TaggedHeader.Proofs.Path

/-!
# Going down from a path by names

Joining names to a path one after the other leads below it, and what such a path says below its base are the
names with slashes between them, however the base is spelled. The base itself may be written with slashes and
dots that say nothing: its parts are passed step by step, and the names are what is left.
-/

namespace TaggedHeader.Path

open Text

variable {base : Path} {names : List FileName} {name : FileName}

/-- The path of what names lead to, one below the other. -/
def descend (base : Path) (names : List FileName) : Path := names.foldl (fun path name => path.join ⟨name⟩) base

theorem descend_cons (base : Path) (name : FileName) (names : List FileName) :
    base.descend (name :: names) = (base.join ⟨name⟩).descend names := rfl

theorem descend_concat (base : Path) (names : List FileName) (name : FileName) :
    base.descend (names ++ [name]) = (base.descend names).join ⟨name⟩ := by
  rw [descend, List.foldl_concat]
  rfl

/-- Names that lead somewhere are one name, or such names with one more behind them. -/
theorem names_induction {motive : List FileName → Prop} (single : ∀ name, IsFileName name → motive [name])
    (concat : ∀ names name, (∀ name ∈ names, IsFileName name) → names ≠ [] → IsFileName name → motive names →
      motive (names ++ [name])) (hnames : ∀ name ∈ names, IsFileName name) (hne : names ≠ []) : motive names := by
  induction names using List.reverseRecOn with
  | nil => exact absurd rfl hne
  | append_singleton names name ih =>
    obtain ⟨hnames, hname⟩ := List.forall_mem_append.mp hnames
    have hname := hname name List.mem_cons_self
    by_cases hone : names = []
    · subst hone
      exact single name hname
    · exact concat names name hnames hone hname (ih hnames hone)

theorem isBelow_descend (hnames : ∀ name ∈ names, IsFileName name) (hne : names ≠ []) :
    (base.descend names).IsBelow base names := by
  refine names_induction (motive := fun names => (base.descend names).IsBelow base names)
    (fun name hname => base.isBelow_join hname) (fun names name _ _ hname hbelow => ?_) hnames hne
  rw [descend_concat]
  exact hbelow.join hname

/-! ## What is left behind the base -/

theorem ne_nil_of_isFileName (h : IsFileName name) : name ≠ [] := by
  rintro rfl
  cases h.notIdle

/-- Names are put behind the parts of a path, or behind all but the empty one that follows a last slash. -/
theorem exists_splitOn_descend (base : Path) : ∃ front : List Text,
    (base.text ≠ [] ∧ splitOn '/' base.text = front ∨ splitOn '/' base.text = front ++ [[]]) ∧
      ∀ names, (∀ name ∈ names, IsFileName name) → names ≠ [] →
        splitOn '/' (base.descend names).text = front ++ names := by
  obtain ⟨front, hbase, hjoin⟩ := base.exists_splitOn_join
  refine ⟨front, hbase, fun names => names_induction
    (motive := fun names => splitOn '/' (base.descend names).text = front ++ names)
    (fun name hname => hjoin name hname.noSlash) fun names name hnames hne hname hsplit => ?_⟩
  obtain ⟨front', hbelow, hjoin'⟩ := (base.descend names).exists_splitOn_join
  rw [descend_concat, hjoin' name hname.noSlash]
  rcases hbelow with ⟨-, hbelow⟩ | hbelow
  · rw [← hbelow, hsplit, List.append_assoc]
  · -- a path that ends in a name ends in no slash
    obtain ⟨above, last, rfl⟩ := (List.eq_nil_or_concat names).resolve_left hne
    rw [hsplit, List.concat_eq_append, ← List.append_assoc] at hbelow
    have hlast := List.head_eq_of_cons_eq (List.append_inj_right' hbelow rfl)
    exact absurd hlast (ne_nil_of_isFileName (hnames last (by simp)))

/-- Passing the steps of some parts passes these parts. -/
theorem dropSteps_append (parts : List Text) (hname : IsFileName name) (names : List FileName) :
    dropSteps (stepsOf parts).length (parts ++ name :: names) = name :: names := by
  induction parts with
  | nil => simp [stepsOf, dropSteps, hname.notIdle]
  | cons part parts ih =>
    cases hidle : isIdle part with
    | true => simpa [stepsOf, dropSteps, hidle] using ih
    | false => simpa [stepsOf, dropSteps, hidle] using ih

/-- Names that follow parts are all that is left behind the steps of the parts. -/
theorem trimPartsEnd_dropSteps (parts : List Text) (hnames : ∀ name ∈ names, IsFileName name) (hne : names ≠ []) :
    trimPartsEnd (dropSteps (stepsOf parts).length (parts ++ names)) = names := by
  obtain ⟨above, last, hlast⟩ := (List.eq_nil_or_concat names).resolve_left hne
  obtain ⟨name, others, hfirst⟩ := List.exists_cons_of_ne_nil hne
  have hpassed : dropSteps (stepsOf parts).length (parts ++ names) = names := by
    rw [hfirst]
    exact dropSteps_append parts (hnames name (by simp [hfirst])) others
  rw [hpassed, trimPartsEnd, hlast, List.concat_eq_append, List.reverse_append, List.reverse_singleton,
    List.singleton_append, List.dropWhile_cons_of_neg, List.reverse_cons, List.reverse_reverse]
  rw [(hnames last (by simp [hlast])).notIdle]
  exact Bool.false_ne_true

/-- Only the first part of a path is a step that is neither a name nor the directory above. -/
theorem ne_of_mem_stepsOf {parts : List Text} {step : Component} (h : step ∈ stepsOf parts) :
    step ≠ .root ∧ step ≠ .current := by
  obtain ⟨part, -, rfl⟩ := List.mem_map.mp h
  split <;> exact ⟨Component.noConfusion, Component.noConfusion⟩

section AfterSteps

variable {path : Path} {step : Component} {steps : List Component}

theorem afterSteps_of_start (h : path.components = step :: steps) (hstep : step = .root ∨ step = .current)
    (count : Nat) : path.afterSteps (count + 1) =
      ⟨joinWith '/' (trimPartsEnd (dropSteps count ((splitOn '/' path.text).drop 1)))⟩ := by
  rcases hstep with rfl | rfl <;> simp [afterSteps, h]

theorem afterSteps_of_ne (h : path.components = step :: steps) (hroot : step ≠ .root) (hcurrent : step ≠ .current)
    (count : Nat) : path.afterSteps (count + 1) =
      ⟨joinWith '/' (trimPartsEnd (dropSteps (count + 1) (splitOn '/' path.text)))⟩ := by
  cases step with
  | root => exact absurd rfl hroot
  | current => exact absurd rfl hcurrent
  | parent => simp [afterSteps, h]
  | normal name => simp [afterSteps, h]

end AfterSteps

/-- The parts that names are put behind are those whose steps a path has. -/
theorem exists_parts_descend (hbase : base.text ≠ []) : ∃ first parts,
    base.components = (if first = [] then .root :: stepsOf parts
      else if first = ['.'] then .current :: stepsOf parts
      else stepsOf (first :: parts)) ∧
    ∀ names, (∀ name ∈ names, IsFileName name) → names ≠ [] →
      splitOn '/' (base.descend names).text = first :: (parts ++ names) := by
  obtain ⟨front, hfront, hsplit⟩ := base.exists_splitOn_descend
  obtain ⟨first, others, hothers⟩ := List.exists_cons_of_ne_nil (splitOn_ne_nil '/' base.text)
  have hsome : first = [] → others ≠ [] := by
    rintro rfl rfl
    apply hbase
    rw [← joinWith_splitOn '/' base.text, hothers]
    rfl
  -- the empty part behind a last slash is no step
  obtain ⟨parts, rfl, hsteps⟩ : ∃ parts, front = first :: parts ∧ stepsOf others = stepsOf parts := by
    rcases hfront with ⟨-, hfront⟩ | hfront
    · exact ⟨others, hfront.symm.trans hothers, rfl⟩
    · cases front with
      | nil =>
        obtain ⟨rfl, rfl⟩ := List.cons.inj (hothers.symm.trans hfront)
        exact absurd rfl (hsome rfl)
      | cons front parts =>
        obtain ⟨rfl, rfl⟩ := List.cons.inj (hothers.symm.trans hfront)
        exact ⟨parts, rfl, (stepsOf_append parts [[]]).trans (List.append_nil _)⟩
  refine ⟨first, parts, ?_, hsplit⟩
  have hall : stepsOf (first :: others) = stepsOf (first :: parts) := by
    rw [← List.singleton_append, stepsOf_append, hsteps, ← stepsOf_append, List.singleton_append]
  rw [components_of_splitOn hothers, hsteps, hall]
  by_cases hempty : first = []
  · rw [if_pos ⟨hempty, hsome hempty⟩, if_pos hempty]
  · rw [if_neg fun h => hempty h.1, if_neg hempty]

/-- What a path that goes down from a base says below it. -/
theorem stripPrefix?_descend (hbase : base.text ≠ []) (hnames : ∀ name ∈ names, IsFileName name)
    (hne : names ≠ []) : (base.descend names).stripPrefix? base = some ⟨joinWith '/' names⟩ := by
  have hbelow : (base.descend names).IsBelow base names := isBelow_descend hnames hne
  have hcomponents := hbelow.components
  have hbegins : base.components.isPrefixOf (base.descend names).components = true := by
    rw [List.isPrefixOf_iff_prefix, hcomponents]
    exact List.prefix_append _ _
  rw [stripPrefix?, if_pos hbegins]
  obtain ⟨first, parts, hbasesteps, hsplit⟩ := exists_parts_descend hbase
  have hsplit := hsplit names hnames hne
  by_cases hstart : first = [] ∨ first = ['.']
  · obtain ⟨step, hstep, hsteps⟩ : ∃ step, (step = .root ∨ step = .current) ∧
        base.components = step :: stepsOf parts := by
      rcases hstart with rfl | rfl
      · exact ⟨.root, .inl rfl, hbasesteps⟩
      · exact ⟨.current, .inr rfl, hbasesteps⟩
    rw [hsteps, List.cons_append] at hcomponents
    rw [hsteps, List.length_cons, afterSteps_of_start hcomponents hstep, hsplit, List.drop_one, List.tail_cons,
      trimPartsEnd_dropSteps parts hnames hne]
  · obtain ⟨hempty, hdot⟩ := not_or.mp hstart
    rw [if_neg hempty, if_neg hdot] at hbasesteps
    have hidle : isIdle first = false := by simp [isIdle, hempty, hdot]
    obtain ⟨step, hstep⟩ : ∃ step, stepsOf (first :: parts) = step :: stepsOf parts :=
      ⟨_, by simp [stepsOf, hidle]; rfl⟩
    obtain ⟨hroot, hcurrent⟩ := ne_of_mem_stepsOf (hstep ▸ List.mem_cons_self)
    rw [hbasesteps, hstep, List.cons_append] at hcomponents
    rw [hbasesteps, hstep, List.length_cons, afterSteps_of_ne hcomponents hroot hcurrent, hsplit, ← List.length_cons,
      ← hstep, ← List.cons_append, trimPartsEnd_dropSteps (first :: parts) hnames hne]

end TaggedHeader.Path
