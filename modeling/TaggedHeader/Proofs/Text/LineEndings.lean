import TaggedHeader.Text.LineEnding

/-!
# Line endings in one pass

Line endings are normalized by two passes over a text. The first one can bring a carriage return and a newline
together that stood apart, but the second one no longer looks at pairs, so that both passes do what one pass
does that takes one line end after the other. Texts can therefore be normalized part by part, as long as no
pair is cut.
-/

namespace TaggedHeader.Text

/-- One pass over a text that writes a newline for each carriage return together with the newline behind it, and
for each carriage return without one. -/
def withNewlines : Text → Text
  | [] => []
  | '\r' :: '\n' :: rest => '\n' :: withNewlines rest
  | '\r' :: rest => '\n' :: withNewlines rest
  | c :: rest => c :: withNewlines rest

theorem withNewlines_return {rest : Text} (h : rest.head? ≠ some '\n') :
    withNewlines ('\r' :: rest) = '\n' :: withNewlines rest := by
  rw [withNewlines]
  exact fun _ heq => h (heq ▸ rfl)

theorem withNewlines_other {c : Char} (h : c ≠ '\r') (rest : Text) :
    withNewlines (c :: rest) = c :: withNewlines rest := by
  rw [withNewlines]
  · exact fun _ heq => absurd heq h
  · exact h

/-- What the first pass leaves of carriage returns, the second one writes as newlines. -/
theorem map_collapsePairs (text : Text) :
    (collapsePairs text).map (fun c => if c = '\r' then '\n' else c) = withNewlines text := by
  fun_induction withNewlines text with
  | case1 => rfl
  | case2 rest ih =>
    rw [collapsePairs, List.map_cons, ih]
    rfl
  | case3 rest hpair ih =>
    rw [collapsePairs, List.map_cons, ih]
    · rfl
    · exact fun rest' _ => hpair rest'
  | case4 c rest hpair hreturn ih =>
    rw [collapsePairs, List.map_cons, ih, if_neg hreturn]
    exact hpair

/-- A text without carriage returns stays as it is. -/
theorem withNewlines_eq_self {text : Text} (h : '\r' ∉ text) : withNewlines text = text := by
  induction text with
  | nil => rfl
  | cons c rest ih =>
    rw [List.mem_cons, not_or] at h
    rw [withNewlines_other (Ne.symm h.1), ih h.2]

theorem normalizeLineEndings_eq_withNewlines (text : Text) : normalizeLineEndings text = withNewlines text := by
  rw [normalizeLineEndings]
  split
  · exact map_collapsePairs text
  · rename_i hnone
    rw [List.contains_iff_mem] at hnone
    exact (withNewlines_eq_self hnone).symm

theorem carriageReturn_notMem_normalizeLineEndings (text : Text) : '\r' ∉ normalizeLineEndings text := by
  rw [normalizeLineEndings]
  split
  · intro hmem
    obtain ⟨c, -, hc⟩ := List.mem_map.mp hmem
    split at hc
    · cases hc
    · contradiction
  · rename_i hnone
    rwa [List.contains_iff_mem] at hnone

theorem normalizeLineEndings_eq_self {text : Text} (h : '\r' ∉ text) : normalizeLineEndings text = text :=
  if_neg (by rwa [List.contains_iff_mem])

/-- A carriage return at the end of a text is parted from the newline at the start of the next. -/
def CutsPair (left right : Text) : Prop := left.getLast? = some '\r' ∧ right.head? = some '\n'

theorem CutsPair.cons {left right : Text} (h : CutsPair left right) (c : Char) : CutsPair (c :: left) right :=
  ⟨by simp [List.getLast?_cons, h.1], h.2⟩

/-- Two texts are passed over one after the other if no pair is cut between them. -/
theorem withNewlines_append {left right : Text} (h : ¬ CutsPair left right) :
    withNewlines (left ++ right) = withNewlines left ++ withNewlines right := by
  fun_induction withNewlines left with
  | case1 => rfl
  | case2 rest ih =>
    have hrest := ih fun hcut => h ((hcut.cons '\n').cons '\r')
    rw [List.cons_append, List.cons_append, withNewlines, hrest, List.cons_append]
  | case3 rest hpair ih =>
    -- The newline that would make a pair is neither in the rest nor at the start of the second text.
    have hnext : (rest ++ right).head? ≠ some '\n' := by
      cases rest with
      | nil => exact fun hhead => h ⟨rfl, hhead⟩
      | cons c rest =>
        intro hhead
        cases hhead
        exact hpair rest rfl
    rw [List.cons_append, withNewlines_return hnext, ih fun hcut => h (hcut.cons '\r'), List.cons_append]
  | case4 c rest hpair hreturn ih =>
    rw [List.cons_append, withNewlines_other hreturn, ih fun hcut => h (hcut.cons c), List.cons_append]

/-- A pair that is cut becomes two newlines instead of one. -/
theorem CutsPair.length_withNewlines {left right : Text} (h : CutsPair left right) :
    (withNewlines left ++ withNewlines right).length = (withNewlines (left ++ right)).length + 1 := by
  obtain ⟨front, rfl⟩ := List.getLast?_eq_some_iff.mp h.1
  obtain ⟨back, rfl⟩ := List.head?_eq_some_iff.mp h.2
  have hleft : withNewlines (front ++ ['\r']) = withNewlines front ++ ['\n'] :=
    withNewlines_append fun hcut => absurd hcut.2 (by decide)
  have hright : withNewlines ('\n' :: back) = '\n' :: withNewlines back := withNewlines_other (by decide) back
  have hwhole : withNewlines (front ++ ['\r'] ++ '\n' :: back) =
      withNewlines front ++ '\n' :: withNewlines back := by
    rw [List.append_assoc]
    exact withNewlines_append fun hcut => absurd hcut.2 (by simp)
  rw [hleft, hright, hwhole]
  simp only [List.length_append, List.length_cons, List.length_nil]
  omega

/-- Normalizing line endings is one pass over a text.

The result has no carriage return, and normalizing it again changes nothing. Two texts one behind the other are
normalized by normalizing each of them exactly when no carriage return at the end of the first is taken apart
from a newline at the start of the second. -/
theorem normalizeLineEndings_onePass (text : Text) :
    normalizeLineEndings text = withNewlines text ∧ '\r' ∉ normalizeLineEndings text ∧
      normalizeLineEndings (normalizeLineEndings text) = normalizeLineEndings text ∧
      ∀ left right, normalizeLineEndings (left ++ right) =
          normalizeLineEndings left ++ normalizeLineEndings right ↔
        ¬ (left.getLast? = some '\r' ∧ right.head? = some '\n') := by
  have hnone := carriageReturn_notMem_normalizeLineEndings text
  refine ⟨normalizeLineEndings_eq_withNewlines text, hnone, normalizeLineEndings_eq_self hnone,
    fun left right => ?_⟩
  simp only [normalizeLineEndings_eq_withNewlines]
  refine ⟨fun happend hcut => ?_, withNewlines_append⟩
  have hlength := CutsPair.length_withNewlines hcut
  rw [happend] at hlength
  omega

/-- The first pass leaves a carriage return in front of a newline here. -/
example : collapsePairs "a\r\r\nb".toList = "a\r\nb".toList ∧
    normalizeLineEndings "a\r\r\nb".toList = "a\n\nb".toList := by
  decide

end TaggedHeader.Text
