/-!
# Text measured in bytes

A text is a list of characters, while every position the library reports counts bytes of the text's
UTF-8 form. A position may therefore lie past the end of a text or inside one of its characters, and
a range may be inverted. Cutting a text reports such a position instead of moving it to a nearby one.

`Text.cutAt` is the only primitive: whatever cuts a text goes through it, and
`Text.cutAt_append` says that a text splits at byte `n` exactly where a prefix of `n` bytes ends.
-/

namespace TaggedHeader

/-- A text, as its characters in order. -/
abbrev Text := List Char

/-- A range of bytes from `start` up to, and not including, `stop`. -/
structure Span where
  start : Nat
  stop : Nat
deriving DecidableEq, Repr, Inhabited

/-- Why a range selects nothing in a text. -/
inductive RangeFault where
  /-- The range starts after its end. -/
  | inverted
  /-- The range ends past the end of the text. -/
  | pastEnd
  /-- A bound falls inside the bytes of one character. -/
  | insideCharacter
deriving DecidableEq, Repr, Inhabited

namespace Span

/-- The number of bytes in the range, none when it is inverted. -/
def length (span : Span) : Nat := span.stop - span.start

/-- Whether `inner` lies within `outer`, bounds included. -/
def encloses (outer inner : Span) : Bool :=
  outer.start ≤ inner.start && inner.stop ≤ outer.stop

end Span

namespace Text

/-- The number of bytes of the UTF-8 form. -/
def size : Text → Nat
  | [] => 0
  | c :: rest => c.utf8Size + size rest

theorem size_append (left right : Text) : size (left ++ right) = size left + size right := by
  induction left with
  | nil => simp [size]
  | cons c rest ih => simp [size, ih, Nat.add_assoc]

/-- Only the empty text has no bytes. -/
theorem size_eq_zero {text : Text} : size text = 0 ↔ text = [] := by
  cases text with
  | nil => simp [size]
  | cons c rest =>
    have := c.utf8Size_pos
    simp only [size, reduceCtorEq, iff_false]
    omega

/-- Splits a text behind its first `offset` bytes. -/
def cutAt : (offset : Nat) → Text → Except RangeFault (Text × Text)
  | 0, text => .ok ([], text)
  | _ + 1, [] => .error .pastEnd
  | n + 1, c :: rest =>
    if n + 1 < c.utf8Size then .error .insideCharacter
    else match cutAt (n + 1 - c.utf8Size) rest with
      | .ok (before, after) => .ok (c :: before, after)
      | .error fault => .error fault

/-- A text splits at the size of any of its prefixes. -/
theorem cutAt_append (before after : Text) :
    cutAt (size before) (before ++ after) = .ok (before, after) := by
  induction before with
  | nil => simp [size, cutAt]
  | cons c rest ih =>
    have positive := c.utf8Size_pos
    obtain ⟨n, hn⟩ : ∃ n, size (c :: rest) = n + 1 := ⟨size (c :: rest) - 1, by simp only [size]; omega⟩
    have remaining : n + 1 - c.utf8Size = size rest := by
      rw [← hn]; simp only [size]; omega
    have fits : ¬ n + 1 < c.utf8Size := by
      rw [← hn]; simp only [size]; omega
    rw [hn, List.cons_append, cutAt, if_neg fits, remaining, ih]

/-- The two parts of a split make up the text, and the first has the requested size. -/
theorem eq_append_of_cutAt {offset : Nat} {text before after : Text}
    (h : cutAt offset text = .ok (before, after)) : text = before ++ after ∧ size before = offset := by
  induction text generalizing offset before with
  | nil =>
    cases offset with
    | zero => simp_all [cutAt, size]
    | succ n => simp [cutAt] at h
  | cons c rest ih =>
    cases offset with
    | zero => simp_all [cutAt, size]
    | succ n =>
      simp only [cutAt] at h
      split at h
      · simp at h
      · rename_i fits
        split at h
        · rename_i left right hcut
          simp only [Except.ok.injEq, Prod.mk.injEq] at h
          obtain ⟨rfl, rfl⟩ := h
          obtain ⟨hrest, hsize⟩ := ih hcut
          refine ⟨by rw [hrest]; rfl, ?_⟩
          simp only [size, hsize]
          omega
        · simp at h

/-- The text that a range selects. -/
def slice (span : Span) (text : Text) : Except RangeFault Text := do
  if span.stop < span.start then throw .inverted
  let (_, tail) ← cutAt span.start text
  let (selected, _) ← cutAt (span.stop - span.start) tail
  return selected

/-- The character that ends at byte `offset`, if the text reaches that far. -/
def charBefore (offset : Nat) (text : Text) : Except RangeFault (Option Char) := do
  let (before, _) ← cutAt offset text
  return before.getLast?

/-- The character that starts at byte `offset`, none at the end of the text. -/
def charAt (offset : Nat) (text : Text) : Except RangeFault (Option Char) := do
  let (_, after) ← cutAt offset text
  return after.head?

/-- Splits off the longest common beginning of `word` and a text. -/
def commonPrefix : (word text : Text) → Text × Text
  | w :: word, c :: text =>
    if w = c then
      let (shared, rest) := commonPrefix word text
      (c :: shared, rest)
    else ([], c :: text)
  | _, text => ([], text)

/-- What follows `word` in a text that begins with it. -/
def dropWord? : (word text : Text) → Option Text
  | [], text => some text
  | w :: word, c :: text => if w = c then dropWord? word text else none
  | _ :: _, [] => none

/-- What precedes `word` in a text that ends with it. -/
def dropLastWord? (word text : Text) : Option Text :=
  (dropWord? word.reverse text.reverse).map List.reverse

/-- The parts of a text between the occurrences of a separator, one more than there are separators. -/
def splitOn (separator : Char) : Text → List Text
  | [] => [[]]
  | c :: rest =>
    if c = separator then [] :: splitOn separator rest
    else match splitOn separator rest with
      | part :: parts => (c :: part) :: parts
      | [] => [[c]]

/-- Parts with a separator between each two. -/
def joinWith (separator : Char) : List Text → Text
  | [] => []
  | [part] => part
  | part :: parts => part ++ separator :: joinWith separator parts

theorem splitOn_ne_nil (separator : Char) (text : Text) : splitOn separator text ≠ [] := by
  cases text with
  | nil => simp [splitOn]
  | cons c rest => grind [splitOn]

/-- Joining the parts of a text gives the text back. -/
theorem joinWith_splitOn (separator : Char) (text : Text) :
    joinWith separator (splitOn separator text) = text := by
  induction text with
  | nil => rfl
  | cons c rest ih =>
    simp only [splitOn]
    split
    · rename_i h
      subst h
      cases hparts : splitOn c rest with
      | nil => exact absurd hparts (splitOn_ne_nil c rest)
      | cons part parts => rw [hparts] at ih; simp [joinWith, ih]
    · split
      · rename_i part parts hparts
        rw [hparts] at ih
        cases parts <;> simp_all [joinWith]
      · rename_i hparts
        exact absurd hparts (splitOn_ne_nil separator rest)

/-- The order of texts by their characters, which is also the order of their bytes. -/
def precedes : Text → Text → Bool
  | [], _ => true
  | _ :: _, [] => false
  | a :: left, b :: right => a < b || (a == b && precedes left right)

end Text
end TaggedHeader
