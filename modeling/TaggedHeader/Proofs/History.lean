import TaggedHeader.Proofs.Computation
import TaggedHeader.Proofs.Replacing

/-!
# The history of a text under revision

A text is revised in place by one call after another. A call whose range selects nothing fails, and it does so
before anything has been changed, so that the calls behind it find the text as it was. What the text remembers
of its past are the latest of the texts that the other calls have found, up to a bound; the bound is kept by
dropping one text at a time. How often the text was changed and by how much it has grown does not depend on what
is still remembered: `Remembers` says both of every state, one call keeps it, and so does a run of calls.
-/

namespace TaggedHeader

open Text

namespace Edit

/-- By how many bytes some edits lengthen a text together. -/
def totalDelta : List Edit → Int
  | [] => 0
  | edit :: edits => edit.delta + totalDelta edits

theorem totalDelta_append (first second : List Edit) :
    totalDelta (first ++ second) = totalDelta first + totalDelta second := by
  induction first with
  | nil => simp [totalDelta]
  | cons edit edits ih => simp only [List.cons_append, totalDelta, ih, Int.add_assoc]

end Edit

/-- A substitution puts its text in the place of the part of a text that its range selects. -/
def Substitution.Turns (sub : Substitution) (text : Text) (edit : Edit) (next : Text) : Prop :=
  ∃ before part after, text = before ++ part ++ after ∧ size before = sub.span.start ∧
    size before + size part = sub.span.stop ∧ next = before ++ sub.text ++ after ∧
    edit.start = sub.span.start ∧ edit.stop = sub.span.stop ∧ edit.inserted = size sub.text

/-- What a run of calls makes of a text: the texts that the calls which succeed find, their edits, and the text
at the end. The other calls have a range that selects nothing, and leave the text as it is. -/
inductive Revises : Text → List Substitution → List Text → List Edit → Text → Prop
  | nil (text : Text) : Revises text [] [] [] text
  | made {text next last : Text} {call : Substitution} {calls : List Substitution} {texts : List Text}
      {edit : Edit} {edits : List Edit} (hcall : call.Turns text edit next)
      (hrest : Revises next calls texts edits last) :
      Revises text (call :: calls) (text :: texts) (edit :: edits) last
  | failed {text last : Text} {call : Substitution} {calls : List Substitution} {texts : List Text}
      {edits : List Edit} (hcall : ∀ part, ¬ Selects text call.span part)
      (hrest : Revises text calls texts edits last) : Revises text (call :: calls) texts edits last

namespace Revises

variable {text last : Text} {calls : List Substitution} {texts : List Text} {edits : List Edit}

/-- The texts of a run begin with the text that it begins with. -/
theorem head?_eq (h : Revises text calls texts edits last) : (texts ++ [last]).head? = some text := by
  induction h with
  | nil text => rfl
  | made hcall hrest ih => rfl
  | failed hcall hrest ih => exact ih

theorem length_eq (h : Revises text calls texts edits last) : edits.length = texts.length := by
  induction h with
  | nil text => rfl
  | made hcall hrest ih => rw [List.length_cons, List.length_cons, ih]
  | failed hcall hrest ih => exact ih

end Revises

namespace SourceText

/-- A change of a text under revision that may fail on the way. -/
abbrev Revision (α : Type) := ExceptT RangeFault (StateM SourceText) α

/-- Replaces a range of the text in place. The text to come is put together before anything is changed. Then the
text so far is recorded, the oldest of the recorded texts dropped when they are too many, the change counted and
every region moved. -/
def replaceInPlace (range : Span) (replacement : Text) : Revision Edit := do
  let edit ← Edit.replacing range (size replacement)
  let (before, _) ← cutAt range.start (← get).current
  let (_, after) ← cutAt range.stop (← get).current
  modify fun source => { source with
    current := before ++ replacement ++ after
    history := source.current :: source.history }
  if maxHistory < (← get).history.length then
    modify fun source => { source with history := source.history.dropLast }
  modify fun source => { source with changes := source.changes + 1 }
  modify fun source => { source with regions := source.regions.map (rebaseRegion edit) }
  return edit

/-- What a change gives in a state, and the state that it leaves, whether it fails or not. -/
def Revision.runOn {α : Type} (revision : Revision α) (source : SourceText) :
    Except RangeFault α × SourceText :=
  revision.run.run source

/-- One attempt to make a substitution in place. -/
def attempt (sub : Substitution) (source : SourceText) : Except RangeFault Edit × SourceText :=
  (replaceInPlace sub.span sub.text).runOn source

/-- One attempt after another, each in the state that the one before it has left. -/
def attemptEach : List Substitution → SourceText → List (Except RangeFault Edit) × SourceText
  | [], source => ([], source)
  | sub :: subs, source =>
    let (outcome, next) := attempt sub source
    let (outcomes, last) := attemptEach subs next
    (outcome :: outcomes, last)

/-- One replacement after another, those that fail passed over. -/
def replaceEach : List Substitution → SourceText → List (Except RangeFault Edit) × SourceText
  | [], source => ([], source)
  | sub :: subs, source =>
    match source.replace sub.span sub.text with
    | .ok (edit, next) =>
      let (outcomes, last) := replaceEach subs next
      (.ok edit :: outcomes, last)
    | .error fault =>
      let (outcomes, last) := replaceEach subs source
      (.error fault :: outcomes, last)

namespace Revision

variable {α β : Type}

theorem runOn_bind (first : Revision α) (second : α → Revision β) (source : SourceText) :
    (first >>= second).runOn source =
      match first.runOn source with
      | (.ok value, next) => (second value).runOn next
      | (.error fault, next) => (.error fault, next) := by
  unfold runOn
  rw [ExceptT.run_bind, StateT.run_bind]
  show (match first.run.run source with | (result, next) => _) = _
  rcases first.run.run source with ⟨_ | _, _⟩ <;> rfl

theorem runOn_lift (result : Except RangeFault α) (source : SourceText) :
    (liftM result : Revision α).runOn source = (result, source) := rfl

theorem runOn_get (source : SourceText) : (get : Revision SourceText).runOn source = (.ok source, source) := rfl

theorem runOn_modify (change : SourceText → SourceText) (source : SourceText) :
    (modify change : Revision Unit).runOn source = (.ok (), change source) := rfl

end Revision

open Revision

variable {source next : SourceText} {sub : Substitution} {edit : Edit} {fault : RangeFault}

/-- An attempt that fails does so before it has changed anything. -/
theorem attempt_of_error (h : source.replace sub.span sub.text = .error fault) :
    attempt sub source = (.error fault, source) := by
  unfold replace at h
  simp only [attempt, replaceInPlace, runOn_bind, runOn_lift, runOn_get]
  rcases bind_eq_error_iff.mp h with hedit | ⟨edit, hedit, h⟩
  · rw [hedit]
  · rcases bind_eq_error_iff.mp h with hbefore | ⟨before, hbefore, h⟩
    · simp only [hedit, hbefore]
    · rcases bind_eq_error_iff.mp h with hafter | ⟨after, hafter, h⟩
      · simp only [hedit, hbefore, hafter]
      · cases h

/-- An attempt that succeeds drops the oldest text when the texts remembered become too many. -/
theorem attempt_of_ok (h : source.replace sub.span sub.text = .ok (edit, next)) :
    attempt sub source = (.ok edit, { next with
      history := if maxHistory < source.history.length + 1 then (source.current :: source.history).dropLast
        else source.current :: source.history }) := by
  unfold replace at h
  obtain ⟨edit, hedit, h⟩ := bind_eq_ok_iff.mp h
  obtain ⟨before, hbefore, h⟩ := bind_eq_ok_iff.mp h
  obtain ⟨after, hafter, h⟩ := bind_eq_ok_iff.mp h
  cases h
  simp only [attempt, replaceInPlace, runOn_bind, runOn_lift, runOn_get, runOn_modify, hedit, hbefore, hafter,
    List.length_cons]
  split <;> rfl

/-- Dropping one text at a time keeps as many texts as may be remembered. -/
theorem attempt_eq_next (hbound : source.history.length ≤ maxHistory)
    (h : source.replace sub.span sub.text = .ok (edit, next)) : attempt sub source = (.ok edit, next) := by
  have hkept : (if maxHistory < source.history.length + 1 then (source.current :: source.history).dropLast
      else source.current :: source.history) = (source.current :: source.history).take maxHistory := by
    split
    · rw [List.dropLast_eq_take, List.length_cons, Nat.add_sub_cancel]
      congr 1
      omega
    · rw [List.take_of_length_le]
      rw [List.length_cons]
      omega
  obtain ⟨before, part, after, -, -, -, -, -, -, hnext⟩ := replace_eq_ok_iff.mp h
  rw [attempt_of_ok h, hkept, hnext]

/-- A replacement lengthens the text by what its edit says. -/
theorem size_eq_add_delta (h : source.replace sub.span sub.text = .ok (edit, next)) :
    (size next.current : Int) = size source.current + edit.delta := by
  obtain ⟨hfits, hsize⟩ := size_replace h
  have := edit.ordered
  rw [Edit.delta]
  omega

/-- Only a range that selects nothing lets a replacement fail. -/
theorem not_selects_of_error (h : source.replace sub.span sub.text = .error fault) (part : Text) :
    ¬ Selects source.current sub.span part := by
  intro hpart
  obtain ⟨edit, next, hok⟩ := exists_replace hpart sub.text
  rw [h] at hok
  cases hok

/-- An attempt succeeds exactly when its range selects something, and otherwise leaves the state as it is. -/
theorem attempt_cases (sub : Substitution) (source : SourceText) :
    (∃ part, Selects source.current sub.span part) ∧ (∃ edit next, attempt sub source = (.ok edit, next)) ∨
      (∀ part, ¬ Selects source.current sub.span part) ∧ ∃ fault, attempt sub source = (.error fault, source) := by
  cases hreplace : source.replace sub.span sub.text with
  | ok result =>
    obtain ⟨before, part, after, hcurrent, hstart, hstop, -⟩ := replace_eq_ok_iff.mp hreplace
    exact .inl ⟨⟨part, before, after, hcurrent, hstart, hstop⟩, _, _, attempt_of_ok hreplace⟩
  | error fault => exact .inr ⟨not_selects_of_error hreplace, fault, attempt_of_error hreplace⟩

/-- What a text remembers of some replacements, given the texts that they found and their edits. -/
structure Remembers (text : Text) (texts : List Text) (edits : List Edit) (source : SourceText) : Prop where
  initial : source.initial = text
  history : source.history = texts.reverse.take maxHistory
  changes : source.changes = texts.length
  delta : source.delta = (edits.getLast?.map Edit.delta).getD 0
  offset : source.offset = Edit.totalDelta edits

namespace Remembers

variable {text : Text} {texts : List Text} {edits : List Edit}

theorem ofText (text : Text) (regions : List Region) : Remembers text [] [] (.ofText text regions) where
  initial := rfl
  history := rfl
  changes := rfl
  delta := rfl
  offset := Int.sub_self _

theorem length_history_le (h : Remembers text texts edits source) : source.history.length ≤ maxHistory := by
  rw [h.history]
  exact List.length_take_le _ _

/-- The state before the latest change is the last of the texts found. -/
theorem previous?_eq (h : Remembers text texts edits source) : source.previous? = texts.getLast? := by
  rw [previous?, h.history, List.head?_take, if_neg (by decide), List.head?_reverse]

/-- One replacement. -/
theorem replace (h : Remembers text texts edits source)
    (hreplace : source.replace sub.span sub.text = .ok (edit, next)) :
    Remembers text (texts ++ [source.current]) (edits ++ [edit]) next := by
  have hsize := size_eq_add_delta hreplace
  obtain ⟨before, part, after, -, -, -, -, -, -, hnext⟩ := replace_eq_ok_iff.mp hreplace
  have hhistory : next.history = (source.current :: source.history).take maxHistory := hnext ▸ rfl
  have hinitial : next.initial = source.initial := hnext ▸ rfl
  constructor
  · rw [hinitial, h.initial]
  · -- What the history had already dropped would be dropped from the longer history again.
    rw [hhistory, h.history, List.reverse_append, List.reverse_singleton, List.singleton_append, maxHistory,
      List.take_succ_cons, List.take_succ_cons, List.take_take]
    rfl
  · rw [hnext, List.length_append, h.changes]
    rfl
  · have hprevious : next.previous? = some source.current := by
      rw [previous?, hhistory]
      rfl
    rw [SourceText.delta, hprevious, List.getLast?_concat]
    show (size next.current : Int) - size source.current = edit.delta
    omega
  · have hoffset := h.offset
    rw [SourceText.offset] at hoffset ⊢
    rw [Edit.totalDelta_append, hinitial, ← hoffset, Edit.totalDelta, Edit.totalDelta]
    omega

/-- Replacing in place comes to the same as replacing. -/
theorem attemptEach_eq (h : Remembers text texts edits source) (subs : List Substitution) :
    attemptEach subs source = replaceEach subs source := by
  induction subs generalizing source texts edits with
  | nil => rfl
  | cons sub subs ih =>
    rw [attemptEach, replaceEach]
    cases hreplace : source.replace sub.span sub.text with
    | error fault => simp only [attempt_of_error hreplace, ih h]
    | ok result =>
      simp only [attempt_eq_next h.length_history_le hreplace, ih (h.replace hreplace)]

/-- A run of replacements, some of which may fail. -/
theorem replaceEach (h : Remembers text texts edits source) (subs : List Substitution) :
    ∃ found made outcomes last, SourceText.replaceEach subs source = (outcomes, last) ∧
      Revises source.current subs found made last.current ∧ outcomes.filterMap Except.toOption = made ∧
      Remembers text (texts ++ found) (edits ++ made) last := by
  induction subs generalizing source texts edits with
  | nil => exact ⟨[], [], [], source, rfl, .nil _, rfl, by simpa using h⟩
  | cons sub subs ih =>
    cases hreplace : source.replace sub.span sub.text with
    | error fault =>
      obtain ⟨found, made, outcomes, last, hrun, hrevises, hmade, hlast⟩ := ih h
      have hfailed := not_selects_of_error hreplace
      refine ⟨found, made, .error fault :: outcomes, last, ?_, .failed hfailed hrevises, hmade, hlast⟩
      simp only [SourceText.replaceEach, hreplace, hrun]
    | ok result =>
      obtain ⟨edit, next⟩ := result
      obtain ⟨found, made, outcomes, last, hrun, hrevises, hmade, hlast⟩ := ih (h.replace hreplace)
      obtain ⟨before, part, after, hcurrent, hbefore, hpart, hstart, hstop, hinserted, hnext⟩ :=
        replace_eq_ok_iff.mp hreplace
      refine ⟨source.current :: found, edit :: made, .ok edit :: outcomes, last, ?_, .made ?_ hrevises, ?_, ?_⟩
      · simp only [SourceText.replaceEach, hreplace, hrun]
      · exact ⟨before, part, after, hcurrent, hbefore, hpart, hnext ▸ rfl, hstart, hstop, hinserted⟩
      · rw [List.filterMap_cons, hmade]
        rfl
      · simpa using hlast

end Remembers

/-- The history of a text is faithful over any run of replacements, whether or not some of them fail.

A replacement in place fails exactly when its range selects nothing, and then leaves the whole state as it was.
The others go from one text to the next, from the given text to the current one. The texts before the current one
are what the history holds, in order, back to the bound; the text remembered as the one before is the last of
them, and they are as many as the changes counted. The latest growth is that of the last edit, and the growth
since the beginning that of all edits, remembered or not. -/
theorem history_follows_replacements (text : Text) (regions : List Region) (subs : List Substitution) :
    (∀ sub source,
      (∃ part, Selects source.current sub.span part) ∧ (∃ edit next, attempt sub source = (.ok edit, next)) ∨
        (∀ part, ¬ Selects source.current sub.span part) ∧ ∃ fault, attempt sub source = (.error fault, source)) ∧
    attemptEach subs (.ofText text regions) = replaceEach subs (.ofText text regions) ∧
    ∃ texts edits outcomes last, replaceEach subs (.ofText text regions) = (outcomes, last) ∧
      Revises text subs texts edits last.current ∧ outcomes.filterMap Except.toOption = edits ∧
      edits.length = texts.length ∧ (texts ++ [last.current]).head? = some last.initial ∧ last.initial = text ∧
      last.changes = texts.length ∧ last.history.reverse = texts.drop (texts.length - maxHistory) ∧
      last.history.length = min texts.length maxHistory ∧ last.previous? = texts.getLast? ∧
      last.delta = (edits.getLast?.map Edit.delta).getD 0 ∧ last.offset = Edit.totalDelta edits := by
  have hstart := Remembers.ofText text regions
  refine ⟨attempt_cases, hstart.attemptEach_eq subs, ?_⟩
  obtain ⟨texts, edits, outcomes, last, hrun, hrevises, hedits, hlast⟩ := hstart.replaceEach subs
  rw [List.nil_append, List.nil_append] at hlast
  have hhistory : last.history.reverse = texts.drop (texts.length - maxHistory) := by
    rw [hlast.history, List.reverse_take, List.reverse_reverse, List.length_reverse]
  have hlength : last.history.length = min texts.length maxHistory := by
    rw [hlast.history, List.length_take, List.length_reverse, Nat.min_comm]
  exact ⟨texts, edits, outcomes, last, hrun, hrevises, hedits, hrevises.length_eq,
    hlast.initial ▸ hrevises.head?_eq, hlast.initial, hlast.changes, hhistory, hlength, hlast.previous?_eq,
    hlast.delta, hlast.offset⟩

/-- The second of these replacements would start inside a character. -/
example :
    let last := (attemptEach [⟨⟨0, 1⟩, "é".toList⟩, ⟨⟨1, 2⟩, []⟩, ⟨⟨2, 3⟩, "xyz".toList⟩] (.ofText "ab".toList [])).2
    last.current = "éxyz".toList ∧ last.history = ["éb".toList, "ab".toList] ∧ last.changes = 2 ∧
      last.previous? = some "éb".toList ∧ last.delta = 2 ∧ last.offset = 3 := by
  decide

end SourceText
end TaggedHeader
