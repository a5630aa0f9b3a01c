import TaggedHeader.Text

/-!
# The part of a text that a range selects

Positions count bytes, so a range may miss the borders between characters. `Text.Selects` says that a
range hits them: the part selected stands behind as many bytes as the range starts at, and fills the range.
Cutting a text never fails at such a range, and two ways to take a text apart at the same byte agree.
-/

namespace TaggedHeader

/-- Two ranges share no byte, one lying behind the other. -/
def Span.Apart (first second : Span) : Prop :=
  first.stop ≤ second.start ∨ second.stop ≤ first.start

instance (first second : Span) : Decidable (first.Apart second) :=
  inferInstanceAs (Decidable (_ ∨ _))

theorem Span.Apart.symm {first second : Span} (h : first.Apart second) : second.Apart first :=
  Or.symm h

/-- Parts of ranges that share no byte share none either. -/
theorem Span.Apart.of_encloses {first second first' second' : Span} (h : first.Apart second)
    (hfirst : first.start ≤ first'.start ∧ first'.stop ≤ first.stop)
    (hsecond : second.start ≤ second'.start ∧ second'.stop ≤ second.stop) : first'.Apart second' := by
  simp only [Span.Apart] at h ⊢
  omega

namespace Text

/-- A position between two characters of a text, or at one of its ends. -/
def IsBoundary (text : Text) (offset : Nat) : Prop :=
  ∃ before after, text = before ++ after ∧ size before = offset

/-- A range that starts and ends between characters selects the part of the text in between. -/
def Selects (text : Text) (span : Span) (part : Text) : Prop :=
  ∃ before after, text = before ++ part ++ after ∧ size before = span.start ∧
    size before + size part = span.stop

/-- The characters of a text that start before byte `offset`. -/
def upTo : (offset : Nat) → Text → Text
  | _, [] => []
  | offset, c :: rest => if offset = 0 then [] else c :: upTo (offset - c.utf8Size) rest

/-- The characters of a text that start at or behind byte `offset`. -/
def behind : (offset : Nat) → Text → Text
  | _, [] => []
  | offset, c :: rest => if offset = 0 then c :: rest else behind (offset - c.utf8Size) rest

/-- A text that is not empty has a byte. -/
theorem size_pos {text : Text} (h : text ≠ []) : 0 < size text :=
  Nat.pos_of_ne_zero fun hzero => h (size_eq_zero.mp hzero)

/-- A longer beginning of a text extends a shorter one. -/
theorem exists_append_of_size_le {left right left' right' : Text}
    (h : left ++ right = left' ++ right') (hsize : size left ≤ size left') :
    ∃ middle, left' = left ++ middle ∧ right = middle ++ right' := by
  rcases List.append_eq_append_iff.mp h with ⟨middle, hleft, hright⟩ | ⟨middle, hleft, hright⟩
  · exact ⟨middle, hleft, hright⟩
  · have hmiddle : middle = [] := by
      rw [hleft, size_append] at hsize
      exact size_eq_zero.mp (by omega)
    subst hmiddle
    exact ⟨[], by simpa using hleft.symm, by simpa using hright.symm⟩

/-- Two beginnings of a text with the same number of bytes are equal. -/
theorem append_inj_of_size_eq {left right left' right' : Text}
    (h : left ++ right = left' ++ right') (hsize : size left = size left') :
    left = left' ∧ right = right' := by
  obtain ⟨middle, hleft, hright⟩ := exists_append_of_size_le h (Nat.le_of_eq hsize)
  have hmiddle : middle = [] := by
    rw [hleft, size_append] at hsize
    exact size_eq_zero.mp (by omega)
  subst hmiddle
  exact ⟨by simpa using hleft.symm, by simpa using hright⟩

theorem upTo_append (before after : Text) : upTo (size before) (before ++ after) = before := by
  induction before with
  | nil => cases after <;> simp [size, upTo]
  | cons c rest ih =>
    have hpos := c.utf8Size_pos
    have hrest : c.utf8Size + size rest - c.utf8Size = size rest := by omega
    simp only [size, List.cons_append, upTo, hrest, ih]
    rw [if_neg (by omega)]

theorem behind_append (before after : Text) : behind (size before) (before ++ after) = after := by
  induction before with
  | nil => cases after <;> simp [size, behind]
  | cons c rest ih =>
    have hpos := c.utf8Size_pos
    have hrest : c.utf8Size + size rest - c.utf8Size = size rest := by omega
    simp only [size, List.cons_append, behind, hrest, ih]
    rw [if_neg (by omega)]

/-- The characters that start before a byte, and the others, make up the text. -/
theorem upTo_append_behind (offset : Nat) (text : Text) : upTo offset text ++ behind offset text = text := by
  induction text generalizing offset with
  | nil => rfl
  | cons c rest ih =>
    by_cases hzero : offset = 0
    · simp [upTo, behind, hzero]
    · simp [upTo, behind, hzero, ih]

/-- A character that starts before a byte starts before every later one. -/
theorem upTo_prefix {first second : Nat} (h : first ≤ second) (text : Text) :
    upTo first text <+: upTo second text := by
  induction text generalizing first second with
  | nil => exact List.prefix_rfl
  | cons c rest ih =>
    by_cases hzero : first = 0
    · simp [upTo, hzero]
    · have hsecond : second ≠ 0 := by omega
      simp only [upTo, if_neg hzero, if_neg hsecond, List.cons_prefix_cons, true_and]
      exact ih (Nat.sub_le_sub_right h _)

/-- A character that does not start before a byte starts at or behind it. -/
theorem le_size_upTo {offset : Nat} {text : Text} (h : behind offset text ≠ []) :
    offset ≤ size (upTo offset text) := by
  induction text generalizing offset with
  | nil => exact absurd rfl h
  | cons c rest ih =>
    by_cases hzero : offset = 0
    · exact hzero ▸ Nat.zero_le _
    · simp only [behind, if_neg hzero] at h
      have hrest := ih h
      simp only [upTo, if_neg hzero, size]
      omega

/-- The first character that starts at a boundary. -/
theorem charAt_append (before after : Text) :
    charAt (size before) (before ++ after) = .ok after.head? := by
  simp [charAt, cutAt_append, bind, Except.bind, pure, Except.pure]

/-- The last character that ends at a boundary. -/
theorem charBefore_append (before after : Text) :
    charBefore (size before) (before ++ after) = .ok before.getLast? := by
  simp [charBefore, cutAt_append, bind, Except.bind, pure, Except.pure]

/-- No boundary lies behind the last byte. -/
theorem IsBoundary.le_size {text : Text} {offset : Nat} (h : IsBoundary text offset) :
    offset ≤ size text := by
  obtain ⟨before, after, rfl, rfl⟩ := h
  rw [size_append]
  omega

/-- Two boundaries in order enclose a part of the text. -/
theorem IsBoundary.selects {text : Text} {start stop : Nat} (hstart : IsBoundary text start)
    (hstop : IsBoundary text stop) (hle : start ≤ stop) : ∃ part, Selects text ⟨start, stop⟩ part := by
  obtain ⟨before, after, rfl, rfl⟩ := hstart
  obtain ⟨before', after', heq, rfl⟩ := hstop
  obtain ⟨part, rfl, rfl⟩ := exists_append_of_size_le heq hle
  exact ⟨part, before, after', heq, rfl, (size_append before part).symm⟩

namespace Selects

variable {text part : Text} {span : Span}

theorem isBoundary_start (h : Selects text span part) : IsBoundary text span.start := by
  obtain ⟨before, after, rfl, hstart, -⟩ := h
  exact ⟨before, part ++ after, by simp, hstart⟩

theorem isBoundary_stop (h : Selects text span part) : IsBoundary text span.stop := by
  obtain ⟨before, after, rfl, -, hstop⟩ := h
  exact ⟨before ++ part, after, rfl, by rw [size_append, hstop]⟩

theorem start_le_stop (h : Selects text span part) : span.start ≤ span.stop := by
  obtain ⟨before, after, -, hstart, hstop⟩ := h
  omega

/-- A range selects something exactly when it is not empty. -/
theorem start_lt_stop (h : Selects text span part) (hpart : part ≠ []) : span.start < span.stop := by
  obtain ⟨before, after, -, hstart, hstop⟩ := h
  have := size_pos hpart
  omega

theorem ne_nil (h : Selects text span part) (hlt : span.start < span.stop) : part ≠ [] := by
  rintro rfl
  obtain ⟨before, after, -, hstart, hstop⟩ := h
  simp only [size] at hstop
  omega

/-- A range selects one part only. -/
theorem unique {part' : Text} (h : Selects text span part) (h' : Selects text span part') :
    part = part' := by
  obtain ⟨before, after, rfl, hstart, hstop⟩ := h
  obtain ⟨before', after', heq, hstart', hstop'⟩ := h'
  rw [List.append_assoc, List.append_assoc] at heq
  obtain ⟨rfl, hrest⟩ := append_inj_of_size_eq heq (by omega)
  exact (append_inj_of_size_eq hrest (by omega)).1

/-- A range that hits the borders of characters cuts its part out. -/
theorem slice_eq (h : Selects text span part) : slice span text = .ok part := by
  have hle : ¬ span.stop < span.start := Nat.not_lt.mpr h.start_le_stop
  obtain ⟨before, after, rfl, hstart, hstop⟩ := h
  have hlength : span.stop - span.start = size part := by omega
  have hfirst := cutAt_append before (part ++ after)
  have hsecond := cutAt_append part after
  rw [hstart] at hfirst
  simp only [slice, if_neg hle, List.append_assoc, hfirst, hlength, hsecond, bind, Except.bind, pure,
    Except.pure]

end Selects

/-- Cutting a range out succeeds exactly at the borders of characters. -/
theorem slice_eq_ok_iff {text part : Text} {span : Span} :
    slice span text = .ok part ↔ Selects text span part := by
  constructor
  · intro h
    unfold slice at h
    by_cases hlt : span.stop < span.start
    · simp [hlt, throw, throwThe, MonadExceptOf.throw, bind, Except.bind] at h
    · simp only [if_neg hlt, bind, Except.bind, pure, Except.pure] at h
      split at h
      · contradiction
      · rename_i first hfirst
        split at h
        · contradiction
        · rename_i second hsecond
          obtain ⟨htext, hbefore⟩ := eq_append_of_cutAt hfirst
          obtain ⟨htail, hselected⟩ := eq_append_of_cutAt hsecond
          simp only [Except.ok.injEq] at h
          subst h
          refine ⟨first.1, second.2, ?_, hbefore, by omega⟩
          rw [htext, htail, List.append_assoc]
  · exact Selects.slice_eq

end Text
end TaggedHeader
