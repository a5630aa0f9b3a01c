import TaggedHeader.Text

/-!
# Lexemes that start tags

The lexer knows three lexemes: the two openers `/*[` and `/*[[`, and an inclusion `#include <name>`.
`Lexeme.read` takes one step at the start of a text. It recognises a lexeme, or gives up at the first
character that fits none and passes over what it has read until then, so an inclusion that is never
closed swallows its line.

`Lexeme.used_append_rest` says that a step loses nothing, and `Lexeme.length_rest_lt` that it makes
progress.
-/

namespace TaggedHeader

open Text

/-- The parts of a text that can start a tag. -/
inductive Lexeme where
  /-- The opener of a literal block, `/*[[`. -/
  | literalOpen
  /-- The opener of any other tag, `/*[`. -/
  | tagOpen
  /-- An inclusion in angle brackets, with what stands between them. -/
  | inclusion (name : Text)
deriving DecidableEq, Repr

namespace Lexeme

/-- What one step of the lexer makes of the start of a text. -/
structure Step where
  /-- The lexeme recognised, none for plain text. -/
  lexeme : Option Lexeme
  /-- The characters that the step passes over. -/
  used : Text
  /-- The characters behind them, where the next step starts. -/
  rest : Text
deriving DecidableEq, Repr

/-- The word that starts an inclusion. -/
def includeWord : Text := ['#', 'i', 'n', 'c', 'l', 'u', 'd', 'e']

/-- The blanks allowed between the word of an inclusion and its bracket. -/
def isGap (c : Char) : Bool := c == ' ' || c == '\t'

/-- The characters that may stand between the brackets of an inclusion. -/
def isBracketed (c : Char) : Bool := c != '<' && c != '>' && c != '\n'

/-- The step behind a slash. -/
def readComment : Text → Step
  | '*' :: '[' :: '[' :: rest => ⟨some .literalOpen, ['/', '*', '[', '['], rest⟩
  | '*' :: '[' :: rest => ⟨some .tagOpen, ['/', '*', '['], rest⟩
  | '*' :: rest => ⟨none, ['/', '*'], rest⟩
  | rest => ⟨none, ['/'], rest⟩

/-- The step behind the word of an inclusion, which `word` has passed over. -/
def readInclusion (word : Text) (text : Text) : Step :=
  let gap := text.takeWhile isGap
  match text.dropWhile isGap with
  | '<' :: inner =>
    let name := inner.takeWhile isBracketed
    match inner.dropWhile isBracketed with
    | '>' :: rest => ⟨some (.inclusion name), word ++ gap ++ '<' :: name ++ ['>'], rest⟩
    | rest => ⟨none, word ++ gap ++ '<' :: name, rest⟩
  | rest => ⟨none, word ++ gap, rest⟩

/-- One step of the lexer. -/
def read : Text → Step
  | [] => ⟨none, [], []⟩
  | '/' :: rest => readComment rest
  | '#' :: rest =>
    let (shared, tail) := commonPrefix includeWord ('#' :: rest)
    if shared = includeWord then readInclusion shared tail else ⟨none, shared, tail⟩
  | c :: rest => ⟨none, [c], rest⟩

theorem commonPrefix_append (word text : Text) :
    (commonPrefix word text).1 ++ (commonPrefix word text).2 = text := by
  fun_induction commonPrefix word text <;> simp_all

theorem readComment_append (text : Text) :
    (readComment text).used ++ (readComment text).rest = '/' :: text := by
  unfold readComment
  split <;> rfl

theorem readInclusion_append (word text : Text) :
    (readInclusion word text).used ++ (readInclusion word text).rest = word ++ text := by
  have gap := text.takeWhile_append_dropWhile (p := isGap)
  simp only [readInclusion]
  split
  · rename_i inner opened
    have name := inner.takeWhile_append_dropWhile (p := isBracketed)
    split
    · rename_i rest closed
      rw [closed] at name
      rw [opened, ← name] at gap
      conv => rhs; rw [← gap]
      simp
    · rw [opened, ← name] at gap
      conv => rhs; rw [← gap]
      simp
  · simp [gap]

/-- A step splits the text into what it used and the rest. -/
theorem used_append_rest (text : Text) : (read text).used ++ (read text).rest = text := by
  unfold read
  split
  · rfl
  · exact readComment_append _
  · rename_i rest
    have shared := commonPrefix_append includeWord ('#' :: rest)
    simp only
    split
    · rw [readInclusion_append, shared]
    · exact shared
  · rfl

theorem used_readComment_ne_nil (text : Text) : (readComment text).used ≠ [] := by
  unfold readComment
  split <;> simp

theorem used_readInclusion_ne_nil {word : Text} (h : word ≠ []) (text : Text) :
    (readInclusion word text).used ≠ [] := by
  simp only [readInclusion]
  split
  · split <;> simp [h]
  · simp [h]

/-- A step at a character uses it up. -/
theorem used_ne_nil (c : Char) (rest : Text) : (read (c :: rest)).used ≠ [] := by
  unfold read
  split
  · contradiction
  · exact used_readComment_ne_nil _
  · rename_i tail
    simp only
    split
    · rename_i whole
      exact used_readInclusion_ne_nil (by rw [whole]; simp [includeWord]) _
    · simp [commonPrefix, includeWord]
  · simp

/-- Each step leaves less to read. -/
theorem length_rest_lt (c : Char) (rest : Text) : (read (c :: rest)).rest.length < (c :: rest).length := by
  have whole := congrArg List.length (used_append_rest (c :: rest))
  have used := List.length_pos_iff.2 (used_ne_nil c rest)
  rw [List.length_append] at whole
  omega

end Lexeme
end TaggedHeader
