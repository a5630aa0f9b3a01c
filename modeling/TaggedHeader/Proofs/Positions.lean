import TaggedHeader.Proofs.Diagnostics
import TaggedHeader.Proofs.Text.Bytes

/-!
# Positions in the bytes of a text

A line table is built from the characters of a text, and a position is looked up in it by halving. Counted in
bytes, the table holds the start of the text and the ends of its newlines, in strict order; the line of a position
is one more than the newlines before it, and its column one more than the bytes between the last of them and the
position. Later positions come later in the order of lines and columns, so that sorting diagnostics by these sorts
them by the places that they are about.
-/

namespace TaggedHeader

open Text

/-- Where the line of a byte starts: behind the last newline before the byte, or where the content starts. -/
structure StartsLine (content : List UInt8) (offset start : Nat) : Prop where
  le : start ≤ offset
  behind : start = 0 ∨ 0 < start ∧ content[start - 1]? = some newline
  between : ∀ index, start ≤ index → index < offset → content[index]? ≠ some newline

/-- What a search for a value in an increasing table may answer: an index that holds the value, or the index at
which the value would have to stand. -/
inductive Answers (starts : Array Nat) (offset : Nat) : Except Nat Nat → Prop
  | found {index : Nat} (hindex : index < starts.size) (heq : starts[index] = offset) :
      Answers starts offset (.ok index)
  | missing {index : Nat} (hbefore : ∀ (line : Nat) (hline : line < starts.size), line < index → starts[line] < offset)
      (hbehind : ∀ (line : Nat) (hline : line < starts.size), index ≤ line → offset < starts[line])
      (hindex : index ≤ starts.size) : Answers starts offset (.error index)

/-- The line that an answer leads to: the one found, or the one before the place of a missing one. -/
def answeredLine : Except Nat Nat → Nat
  | .ok index => index
  | .error index => index - 1

namespace Text

open LineTable

/-- The newlines before a byte are those of the characters before it. -/
theorem count_take_bytes (text : Text) (offset : Nat) :
    ((bytes text).take offset).count newline = (upTo offset text).count '\n' := by
  induction text generalizing offset with
  | nil => simp [bytes, upTo]
  | cons c rest ih =>
    by_cases hzero : offset = 0
    · simp [hzero, upTo]
    · rw [bytes_cons, List.take_append, List.count_append, String.length_utf8EncodeChar, ih, upTo, if_neg hzero,
        List.count_cons, Nat.add_comm]
      congr 1
      by_cases hnewline : c = '\n'
      · subst hnewline
        rw [List.take_of_length_le (Nat.pos_of_ne_zero hzero)]
        rfl
      · have hnone : newline ∉ (String.utf8EncodeChar c).take offset :=
          fun hmem => newline_notMem_utf8EncodeChar hnewline (List.mem_of_mem_take hmem)
        rw [List.count_eq_zero.mpr hnone, if_neg (by simpa using hnewline)]

/-- A text ends with its last line, which starts behind a newline or with the text. -/
theorem exists_lastLine (text : Text) : ∃ front line, text = front ++ line ∧ '\n' ∉ line ∧
    lineStart text = size front ∧ (front = [] ∨ ∃ rest, front = rest ++ ['\n']) := by
  induction text using List.reverseRecOn with
  | nil => exact ⟨[], [], rfl, List.not_mem_nil, rfl, .inl rfl⟩
  | append_singleton text c ih =>
    rw [lineStart_concat]
    by_cases hnewline : c = '\n'
    · subst hnewline
      refine ⟨text ++ ['\n'], [], by simp, List.not_mem_nil, ?_, .inr ⟨text, rfl⟩⟩
      rw [if_pos rfl, size_append]
      rfl
    · obtain ⟨front, line, rfl, hline, hstart, hfront⟩ := ih
      refine ⟨front, line ++ [c], by simp, ?_, by rw [if_neg hnewline, hstart], hfront⟩
      simp [hline, Ne.symm hnewline]

/-- The last line of the characters before a byte is the line of the byte. -/
theorem startsLine_lineStart (text : Text) (offset : Nat) :
    StartsLine (bytes text) offset (lineStart (upTo offset text)) := by
  have hle := lineStart_upTo_le offset text
  obtain ⟨front, line, hupTo, hline, hstart, hfront⟩ := exists_lastLine (upTo offset text)
  have hbytes : bytes text = bytes front ++ (bytes line ++ bytes (behind offset text)) := by
    rw [← bytes_append, ← bytes_append, ← List.append_assoc, ← hupTo, upTo_append_behind]
  rw [hstart] at hle ⊢
  refine ⟨hle, ?_, fun index hge hlt hnewline => ?_⟩
  · rcases hfront with rfl | ⟨rest, rfl⟩
    · exact .inl rfl
    · right
      rw [hbytes, bytes_append, size_append]
      refine ⟨Nat.succ_pos _, ?_⟩
      rw [List.append_assoc, List.getElem?_append_right (by rw [length_bytes]; exact Nat.le_refl _), length_bytes]
      show (bytes ['\n'] ++ _)[size rest + 1 - 1 - size rest]? = some newline
      rw [Nat.add_sub_cancel, Nat.sub_self]
      rfl
  · rw [hbytes, List.getElem?_append_right (by rw [length_bytes]; exact hge), length_bytes] at hnewline
    rcases Nat.lt_or_ge (index - size front) (bytes line).length with hinside | hbehind
    · rw [List.getElem?_append_left hinside] at hnewline
      exact hline (newline_mem_bytes_iff.mp (List.mem_of_getElem? hnewline))
    · -- A byte before `offset` lies in a character that starts before it, if not behind the whole text.
      by_cases hend : behind offset text = []
      · rw [hend, List.getElem?_append_right hbehind] at hnewline
        cases hnewline
      · have hsize := le_size_upTo hend
        rw [hupTo, size_append] at hsize
        rw [length_bytes] at hbehind
        omega

end Text

namespace LineTable

/-- The lines of a text behind its first one start at the ends of the newlines among its bytes. -/
theorem startsFrom_eq (base : Nat) (text : Text) : startsFrom base text =
    ((bytes text).zipIdx base).filterMap fun (byte, index) => if byte = newline then some (index + 1) else none := by
  induction text generalizing base with
  | nil => rfl
  | cons c rest ih =>
    rw [bytes_cons, List.zipIdx_append, List.filterMap_append, String.length_utf8EncodeChar, ← ih, startsFrom]
    by_cases hnewline : c = '\n'
    · subst hnewline
      rfl
    · rw [if_neg hnewline, List.filterMap_eq_nil_iff.mpr, List.nil_append]
      rintro ⟨byte, index⟩ hentry
      refine if_neg fun heq => newline_notMem_utf8EncodeChar hnewline ?_
      exact heq ▸ List.fst_mem_of_mem_zipIdx hentry

/-- The lines of a text start one behind the other. -/
theorem pairwise_starts (text : Text) : (ofText text).starts.toList.Pairwise (· < ·) := by
  have hrest : ∀ base, (startsFrom base text).Pairwise (· < ·) := by
    induction text with
    | nil => exact fun _ => .nil
    | cons c rest ih =>
      intro base
      rw [startsFrom]
      split
      · exact .cons (fun _ hstart => lt_of_mem_startsFrom hstart) (ih _)
      · exact ih _
  exact .cons (fun _ hstart => lt_of_mem_startsFrom hstart) (hrest 0)

/-- The line of a byte is the one that any search in the table leads to: the line that starts at the byte, or the one
before the place where such a line would stand. -/
theorem lineIndex_eq_of_answers {text : Text} {offset : Nat} {answer : Except Nat Nat}
    (h : Answers (ofText text).starts offset answer) :
    (ofText text).lineIndex offset = answeredLine answer := by
  obtain ⟨hlast, hstart, hnext⟩ := lineIndex_spec text offset
  generalize (ofText text).lineIndex offset = line at hlast hstart hnext
  rw [Array.getD_eq_getD_getElem?, Array.getElem?_eq_getElem hlast, Option.getD_some] at hstart
  have hbehind : ∀ hline : line + 1 < (ofText text).starts.size, offset < (ofText text).starts[line + 1] := by
    intro hline
    rcases hnext with hend | hnext
    · omega
    · rwa [Array.getD_eq_getD_getElem?, Array.getElem?_eq_getElem hline, Option.getD_some] at hnext
  have hordered : ∀ (first second : Nat) (hfirst : first < (ofText text).starts.size)
      (hsecond : second < (ofText text).starts.size), first < second →
        (ofText text).starts[first] < (ofText text).starts[second] := fun first second hfirst hsecond hlt =>
    List.pairwise_iff_getElem.mp (pairwise_starts text) first second hfirst hsecond hlt
  cases h with
  | @found index hindex heq =>
    rcases Nat.lt_trichotomy line index with hlt | rfl | hgt
    · have hlater := hbehind (by omega)
      rcases Nat.lt_or_ge (line + 1) index with hless | hge
      · have := hordered (line + 1) index (by omega) hindex hless
        omega
      · obtain rfl : index = line + 1 := by omega
        omega
    · rfl
    · have := hordered index line hindex hlast hgt
      omega
  | @missing index hbefore hafter hindex =>
    show line = index - 1
    by_contra hne
    rcases Nat.lt_or_ge line index with hlt | hge
    · have hlater := hbehind (by omega)
      have := hbefore (line + 1) (by omega) (by omega)
      omega
    · have := hafter line hlast hge
      omega

/-- Diagnostics are listed in the order of the places that they are about. -/
theorem precedes_located (text : Text) (first second : Nat) (cause other : Diagnostic.Cause) :
    (Diagnostic.located (ofText text) first cause).precedes (.located (ofText text) second other) =
      decide (first ≤ second) := by
  rw [Bool.eq_iff_iff, Diagnostic.precedes_iff, decide_eq_true_eq]
  simp only [Diagnostic.located, point_ofText]
  rcases Nat.lt_trichotomy first second with hlt | rfl | hgt
  · have := @point_lt text _ _ hlt
    omega
  · simp
  · have := @point_lt text _ _ hgt
    omega

end LineTable

open LineTable

/-- A line table gives every position its line and its column exactly, and keeps the order of positions.

The table holds 0 and the end of each newline byte, in strict order. The line of a position counts the newline bytes
before it, and its column the bytes from the end of the last of them, which does not lie behind the position; the
line is the one that any binary search in the table leads to. An earlier position has an earlier line, or an earlier
column in the same line, so that diagnostics sorted by line and column are sorted by position. -/
theorem lineTable_locates_bytes (text : Text) :
    (ofText text).starts.toList = 0 :: ((bytes text).zipIdx.filterMap fun (byte, index) =>
        if byte = newline then some (index + 1) else none) ∧
      (ofText text).starts.toList.Pairwise (· < ·) ∧
      (∀ offset, (ofText text).lineIndex offset < (ofText text).starts.size ∧
        ∃ start, StartsLine (bytes text) offset start ∧
          (ofText text).starts.getD ((ofText text).lineIndex offset) 0 = start ∧
          (ofText text).point offset =
            ⟨((bytes text).take offset).count newline + 1, offset - start + 1, offset⟩) ∧
      (∀ offset answer, Answers (ofText text).starts offset answer →
        (ofText text).lineIndex offset = answeredLine answer) ∧
      (∀ first second, first < second →
        ((ofText text).point first).line < ((ofText text).point second).line ∨
          ((ofText text).point first).line = ((ofText text).point second).line ∧
            ((ofText text).point first).column < ((ofText text).point second).column) ∧
      ∀ (draft : Draft) (found : List (Nat × Diagnostic.Cause)),
        Draft.sortedDiagnostics { draft with
            diagnostics := found.map fun entry => .located (ofText text) entry.1 entry.2 } =
          (found.mergeSort fun first second => first.1 ≤ second.1).map fun entry =>
            .located (ofText text) entry.1 entry.2 := by
  refine ⟨congrArg (0 :: ·) (startsFrom_eq 0 text), pairwise_starts text, fun offset => ?_,
    fun offset answer => lineIndex_eq_of_answers, fun first second hlt => ?_, fun draft found => ?_⟩
  · obtain ⟨hindex, -⟩ := lineIndex_spec text offset
    refine ⟨hindex, _, startsLine_lineStart text offset, starts_lineIndex text offset, ?_⟩
    rw [point_ofText, count_take_bytes]
    rfl
  · simp only [point_ofText]
    exact point_lt hlt
  · exact (List.map_mergeSort fun first _ second _ =>
      (precedes_located text first.1 second.1 first.2 second.2).symm).symm

/-- A text with an empty line and a character of two bytes. -/
def accentedText : Text := "a\né\n\nb".toList

/-- The start of a line is found in the table, and a byte inside a character lies behind the line before. -/
theorem lineTable_locates_bytes_accentedText :
    Answers (ofText accentedText).starts 5 (.ok 2) ∧ (ofText accentedText).lineIndex 5 = 2 ∧
      Answers (ofText accentedText).starts 3 (.error 2) ∧ (ofText accentedText).lineIndex 3 = 1 ∧
      (3 < 5 ∧ ((ofText accentedText).point 3).line < ((ofText accentedText).point 5).line) := by
  obtain ⟨-, -, hpoint, hsearch, hordered, -⟩ := lineTable_locates_bytes accentedText
  have hfound : Answers (ofText accentedText).starts 5 (.ok 2) := .found (by decide) (by decide)
  have hmissing : Answers (ofText accentedText).starts 3 (.error 2) :=
    .missing (by decide) (by decide) (by decide)
  have hfirst : (ofText accentedText).lineIndex 3 = 1 := hsearch 3 _ hmissing
  have hsecond : (ofText accentedText).lineIndex 5 = 2 := hsearch 5 _ hfound
  refine ⟨hfound, hsecond, hmissing, hfirst, by decide, ?_⟩
  refine (hordered 3 5 (by decide)).resolve_right fun hsame => ?_
  have hline : (ofText accentedText).lineIndex 3 + 1 = (ofText accentedText).lineIndex 5 + 1 := hsame.1
  rw [hfirst, hsecond] at hline
  exact absurd hline (by decide)

end TaggedHeader
