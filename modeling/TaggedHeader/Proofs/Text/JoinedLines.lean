import Mathlib.Data.List.Infix
import TaggedHeader.Text

/-!
# Lines joined by newlines

A text that is joined from lines consists of the first line and, behind it, of every other line with its newline in
front. So two lists of lines are joined one behind the other, and a word without newlines that stands in the text
stands on one of the lines.
-/

namespace TaggedHeader.Text

/-- Lines that follow another line, each behind its newline. -/
def linesBehind (lines : List Text) : Text := lines.flatMap ('\n' :: ·)

theorem joinWith_cons (line : Text) (lines : List Text) : joinWith '\n' (line :: lines) = line ++ linesBehind lines := by
  induction lines generalizing line with
  | nil => simp [joinWith, linesBehind]
  | cons next lines ih =>
    have hnext := ih next
    have hjoin : joinWith '\n' (line :: next :: lines) = line ++ '\n' :: joinWith '\n' (next :: lines) := rfl
    rw [hjoin, hnext]
    rfl

theorem linesBehind_cons (line : Text) (lines : List Text) :
    linesBehind (line :: lines) = '\n' :: joinWith '\n' (line :: lines) := by
  rw [joinWith_cons]
  rfl

theorem linesBehind_append (lines more : List Text) :
    linesBehind (lines ++ more) = linesBehind lines ++ linesBehind more := List.flatMap_append

theorem joinWith_append {lines : List Text} (h : lines ≠ []) (more : List Text) :
    joinWith '\n' (lines ++ more) = joinWith '\n' lines ++ linesBehind more := by
  obtain ⟨line, lines, rfl⟩ := List.exists_cons_of_ne_nil h
  rw [List.cons_append, joinWith_cons, joinWith_cons, linesBehind_append, List.append_assoc]

/-- What comes behind a line: nothing, or a newline and more lines. -/
def EndsLine (more : Text) : Prop := more = [] ∨ ∃ lines, more = '\n' :: lines

theorem EndsLine.append {text more : Text} (h : text.EndsLine) (hmore : more.EndsLine) : (text ++ more).EndsLine := by
  rcases h with rfl | ⟨lines, rfl⟩
  · exact hmore
  · exact .inr ⟨lines ++ more, rfl⟩

theorem linesBehind_endsLine (lines : List Text) : (linesBehind lines).EndsLine := by
  cases lines with
  | nil => exact .inl rfl
  | cons line lines => exact .inr ⟨_, rfl⟩

theorem size_newline_cons (text : Text) : size ('\n' :: text) = size text + 1 := Nat.add_comm 1 (size text)

/-- A word without newlines stands on one side of a newline. -/
theorem infix_append_newline {word left right : Text} (hword : '\n' ∉ word)
    (h : word <:+: left ++ '\n' :: right) : word <:+: left ∨ word <:+: right := by
  have hstart : ∀ {part : Text}, '\n' ∉ part → part <+: '\n' :: right → part = [] := by
    intro part hpart hbegins
    rcases List.prefix_cons_iff.mp hbegins with hnil | ⟨tail, rfl, -⟩
    · exact hnil
    · exact absurd List.mem_cons_self hpart
  rcases List.infix_append_iff.mp h with hleft | hright | ⟨front, back, rfl, hfront, hback⟩
  · exact .inl hleft
  · rcases List.infix_cons_iff.mp hright with hbegins | hstands
    · rw [hstart hword hbegins]
      exact .inl (List.nil_infix)
    · exact .inr hstands
  · rw [hstart (fun hmem => hword (List.mem_append_right front hmem)) hback, List.append_nil]
    exact .inl hfront.isInfix

/-- A word without newlines that stands on none of the lines does not stand in the whole. -/
theorem notInfix_joinWith {word : Text} (hword : '\n' ∉ word) (hne : word ≠ []) {lines : List Text}
    (h : ∀ line ∈ lines, ¬ word <:+: line) : ¬ word <:+: joinWith '\n' lines := by
  induction lines with
  | nil => exact fun hstands => hne (List.eq_nil_of_infix_nil hstands)
  | cons line lines ih =>
    obtain ⟨hline, hlines⟩ := List.forall_mem_cons.mp h
    cases lines with
    | nil => exact hline
    | cons next lines =>
      intro hstands
      have hsides : word <:+: line ∨ word <:+: joinWith '\n' (next :: lines) := infix_append_newline hword hstands
      exact hsides.elim hline (ih hlines)

end TaggedHeader.Text
