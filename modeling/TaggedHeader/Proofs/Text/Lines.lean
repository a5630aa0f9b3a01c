import Mathlib.Data.List.DropRight
import Mathlib.Data.List.GetD
import TaggedHeader.Proofs.Text.Selection
import TaggedHeader.Text.LineTable

/-!
# Looking a position up in a line table

A byte stands on the line that the newlines before it count, in the column that the bytes behind the last
of them count. A table records where the lines start; the starts at or before a byte are those of the text
before the byte, and the search finds the last of them. Line and column therefore order the bytes of a text.
-/

namespace TaggedHeader

namespace Text

/-- The line of a byte: one more than the newlines before it. -/
def lineOf (text : Text) (offset : Nat) : Nat := (upTo offset text).count '\n' + 1

/-- How many bytes of a text stand before its last line. -/
def lineStart (text : Text) : Nat := size (text.rdropWhile (· != '\n'))

/-- The column of a byte: one more than the bytes between the last newline before it and itself. -/
def columnOf (text : Text) (offset : Nat) : Nat := offset - lineStart (upTo offset text) + 1

theorem lineStart_concat (text : Text) (c : Char) :
    lineStart (text ++ [c]) = if c = '\n' then size text + 1 else lineStart text := by
  rw [lineStart, List.rdropWhile_concat]
  by_cases hnewline : c = '\n'
  · subst hnewline
    rw [if_neg (by decide), if_pos rfl, size_append]
    rfl
  · simp [hnewline, lineStart]

/-- Without a newline, the last line of a text goes on. -/
theorem lineStart_append {left right : Text} (h : '\n' ∉ right) :
    lineStart (left ++ right) = lineStart left := by
  induction right using List.reverseRecOn with
  | nil => rw [List.append_nil]
  | append_singleton right c ih =>
    rw [List.mem_append, not_or, List.mem_singleton] at h
    rw [← List.append_assoc, lineStart_concat, if_neg (Ne.symm h.2), ih h.1]

end Text

namespace LineTable

open Text

/-- The search finds the last line that starts at or before a position. -/
theorem search_spec {starts : Array Nat} {offset low high : Nat} (hlow : starts.getD low 0 ≤ offset)
    (hlt : low < high) (hhigh : high = starts.size ∨ offset < starts.getD high 0) :
    low ≤ search starts offset low high ∧ search starts offset low high < high ∧
      starts.getD (search starts offset low high) 0 ≤ offset ∧
      (search starts offset low high + 1 = starts.size ∨
        offset < starts.getD (search starts offset low high + 1) 0) := by
  fun_induction search starts offset low high with
  | case1 low high hmore middle hle ih =>
    have hmiddle : low < middle ∧ middle < high := by omega
    obtain ⟨hfirst, hlast, hstart, hnext⟩ := ih hle hmiddle.2 hhigh
    exact ⟨Nat.le_trans (Nat.le_of_lt hmiddle.1) hfirst, hlast, hstart, hnext⟩
  | case2 low high hmore middle hle ih =>
    have hmiddle : low < middle ∧ middle < high := by omega
    obtain ⟨hfirst, hlast, hstart, hnext⟩ := ih hlow hmiddle.1 (.inr (Nat.not_le.mp hle))
    exact ⟨hfirst, Nat.lt_trans hlast hmiddle.2, hstart, hnext⟩
  | case3 low high hdone =>
    have heq : low + 1 = high := by omega
    exact ⟨Nat.le_refl _, hlt, hlow, heq ▸ hhigh⟩

theorem startsFrom_append (offset : Nat) (left right : Text) :
    startsFrom offset (left ++ right) = startsFrom offset left ++ startsFrom (offset + size left) right := by
  induction left generalizing offset with
  | nil => rfl
  | cons c rest ih =>
    simp only [List.cons_append, startsFrom, ih, size, Nat.add_assoc]
    split <;> rfl

theorem length_startsFrom (offset : Nat) (text : Text) :
    (startsFrom offset text).length = text.count '\n' := by
  induction text generalizing offset with
  | nil => rfl
  | cons c rest ih =>
    by_cases hnewline : c = '\n'
    · simp [startsFrom, hnewline, ih]
    · simp [startsFrom, hnewline, ih]

/-- The last of the lines that a table records is the last line of the text. -/
theorem getLast?_startsFrom (text : Text) : (0 :: startsFrom 0 text).getLast? = some (lineStart text) := by
  induction text using List.reverseRecOn with
  | nil => rfl
  | append_singleton text c ih =>
    rw [startsFrom_append, lineStart_concat, Nat.zero_add]
    by_cases hnewline : c = '\n'
    · rw [if_pos hnewline, hnewline, ← List.cons_append]
      exact List.getLast?_concat
    · rw [if_neg hnewline, startsFrom, if_neg hnewline, startsFrom, List.append_nil, ih]

/-- A line starts behind the start of the text that it stands in. -/
theorem lt_of_mem_startsFrom {base start : Nat} {text : Text} (h : start ∈ startsFrom base text) :
    base < start := by
  induction text generalizing base with
  | nil => cases h
  | cons c rest ih =>
    have hpos := c.utf8Size_pos
    simp only [startsFrom] at h
    split at h
    · rcases List.mem_cons.mp h with rfl | htail
      · omega
      · have := ih htail
        omega
    · have := ih h
      omega

/-- A line that starts behind a newline before a byte starts at or before the byte. -/
theorem le_of_mem_startsFrom_upTo {base offset start : Nat} {text : Text}
    (h : start ∈ startsFrom base (upTo offset text)) : start ≤ base + offset := by
  induction text generalizing base offset with
  | nil => cases h
  | cons c rest ih =>
    by_cases hzero : offset = 0
    · rw [upTo, if_pos hzero] at h
      cases h
    · rw [upTo, if_neg hzero, startsFrom] at h
      have hone : '\n'.utf8Size = 1 := rfl
      split at h
      · rename_i hnewline
        subst hnewline
        rcases List.mem_cons.mp h with rfl | htail
        · omega
        · have := ih htail
          omega
      · by_cases hfits : c.utf8Size ≤ offset
        · have := ih h
          omega
        · rw [Nat.sub_eq_zero_of_le (Nat.le_of_not_le hfits)] at h
          cases rest <;> cases h

/-- The lines of a text are those before a byte and those behind it. -/
theorem starts_ofText (text : Text) (offset : Nat) :
    (ofText text).starts.toList = (0 :: startsFrom 0 (upTo offset text)) ++
      startsFrom (size (upTo offset text)) (behind offset text) := by
  rw [ofText, List.cons_append, ← Nat.zero_add (size _), ← startsFrom_append, upTo_append_behind]

/-- The search in a line table finds the last line that starts at or before a byte. -/
theorem lineIndex_spec (text : Text) (offset : Nat) :
    (ofText text).lineIndex offset < (ofText text).starts.size ∧
      (ofText text).starts.getD ((ofText text).lineIndex offset) 0 ≤ offset ∧
      ((ofText text).lineIndex offset + 1 = (ofText text).starts.size ∨
        offset < (ofText text).starts.getD ((ofText text).lineIndex offset + 1) 0) := by
  have hfirst : (ofText text).starts.getD 0 0 ≤ offset := Nat.zero_le _
  have hsome : 0 < (ofText text).starts.size := Nat.zero_lt_succ _
  exact (search_spec hfirst hsome (.inl rfl)).2

/-- A position is found on a line of the text that starts at or before it. -/
theorem lineIndex_ofText (text : Text) (offset : Nat) :
    (ofText text).lineIndex offset < (ofText text).starts.size ∧
      (ofText text).starts.getD ((ofText text).lineIndex offset) 0 ≤ offset := by
  obtain ⟨hlast, hstart, -⟩ := lineIndex_spec text offset
  exact ⟨hlast, hstart⟩

/-- The first lines of a text are those of the text before a byte. -/
theorem getD_starts_of_le {text : Text} {offset index : Nat} (h : index ≤ (upTo offset text).count '\n') :
    (ofText text).starts.getD index 0 = (0 :: startsFrom 0 (upTo offset text)).getD index 0 := by
  have hlt : index < (0 :: startsFrom 0 (upTo offset text)).length := by
    rw [List.length_cons, length_startsFrom]
    exact Nat.lt_succ_of_le h
  rw [← List.getD_append _ _ _ _ hlt, ← starts_ofText]
  simp

/-- The lines that start at or before a byte are those of the text before it. -/
theorem getD_starts_le_iff {text : Text} {offset index : Nat} (hindex : index < (ofText text).starts.size) :
    (ofText text).starts.getD index 0 ≤ offset ↔ index ≤ (upTo offset text).count '\n' := by
  have hlength : (0 :: startsFrom 0 (upTo offset text)).length = (upTo offset text).count '\n' + 1 := by
    rw [List.length_cons, length_startsFrom]
  rcases Nat.lt_or_ge ((upTo offset text).count '\n') index with hgt | hle
  · have hget : (ofText text).starts.getD index 0 = (startsFrom (size (upTo offset text))
        (behind offset text)).getD (index - (0 :: startsFrom 0 (upTo offset text)).length) 0 := by
      rw [← List.getD_append_right _ _ _ _ (by omega), ← starts_ofText]
      simp
    have hlt : index - (0 :: startsFrom 0 (upTo offset text)).length <
        (startsFrom (size (upTo offset text)) (behind offset text)).length := by
      have hsize := congrArg List.length (starts_ofText text offset)
      rw [List.length_append, Array.length_toList] at hsize
      omega
    have hmore : behind offset text ≠ [] := by
      intro hnone
      simp [hnone, startsFrom] at hlt
    have hstart := lt_of_mem_startsFrom (List.getElem_mem hlt)
    have hbehind := le_size_upTo hmore
    rw [hget, List.getD_eq_getElem _ _ hlt]
    exact iff_of_false (by omega) (by omega)
  · have hlt : index < (0 :: startsFrom 0 (upTo offset text)).length := by omega
    rw [getD_starts_of_le hle, List.getD_eq_getElem _ _ hlt]
    refine iff_of_true ?_ hle
    rcases List.mem_cons.mp (List.getElem_mem hlt) with hzero | hstart
    · omega
    · have := le_of_mem_startsFrom_upTo hstart
      omega

/-- The line of a byte is the last one that starts at or before it. -/
theorem lineIndex_eq (text : Text) (offset : Nat) :
    (ofText text).lineIndex offset = (upTo offset text).count '\n' := by
  obtain ⟨hindex, hstart, hnext⟩ := lineIndex_spec text offset
  have hle := (getD_starts_le_iff hindex).mp hstart
  have hsize : (upTo offset text).count '\n' < (ofText text).starts.size := by
    have hlength := congrArg List.length (starts_ofText text offset)
    rw [List.length_append, List.length_cons, length_startsFrom, Array.length_toList] at hlength
    omega
  rcases hnext with hlast | hnext
  · omega
  · by_contra hne
    have hmore : (ofText text).lineIndex offset + 1 ≤ (upTo offset text).count '\n' := by omega
    exact absurd ((getD_starts_le_iff (Nat.lt_of_le_of_lt hmore hsize)).mpr hmore) (Nat.not_le.mpr hnext)

/-- The last line of the text before a byte starts at or before the byte. -/
theorem lineStart_upTo_le (offset : Nat) (text : Text) : lineStart (upTo offset text) ≤ offset := by
  have hlast := List.mem_of_getLast? (getLast?_startsFrom (upTo offset text))
  rcases List.mem_cons.mp hlast with hzero | hstart
  · omega
  · have := le_of_mem_startsFrom_upTo hstart
    omega

/-- The line that a byte is found on starts where the last line of the text before the byte does. -/
theorem starts_lineIndex (text : Text) (offset : Nat) :
    (ofText text).starts.getD ((ofText text).lineIndex offset) 0 = lineStart (upTo offset text) := by
  have hlast := getLast?_startsFrom (upTo offset text)
  rw [List.getLast?_eq_getElem?, List.length_cons, length_startsFrom, Nat.add_sub_cancel] at hlast
  rw [lineIndex_eq, getD_starts_of_le (Nat.le_refl _), List.getD_eq_getElem?_getD, hlast, Option.getD_some]

/-- A line table gives a byte its line and its column. -/
theorem point_ofText (text : Text) (offset : Nat) :
    (ofText text).point offset = ⟨lineOf text offset, columnOf text offset, offset⟩ := by
  rw [point, starts_lineIndex, lineIndex_eq]
  rfl

/-- A byte stands on an earlier line than a later byte, or in an earlier column of the same line. -/
theorem point_lt {text : Text} {first second : Nat} (h : first < second) :
    lineOf text first < lineOf text second ∨
      lineOf text first = lineOf text second ∧ columnOf text first < columnOf text second := by
  obtain ⟨between, hbetween⟩ := upTo_prefix (Nat.le_of_lt h) text
  have hstart := lineStart_upTo_le first text
  simp only [lineOf, columnOf]
  rw [← hbetween, List.count_append]
  by_cases hmem : '\n' ∈ between
  · have := List.count_pos_iff.mpr hmem
    omega
  · rw [List.count_eq_zero.mpr hmem, lineStart_append hmem]
    omega

end LineTable
end TaggedHeader
