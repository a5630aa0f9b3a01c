import TaggedHeader.Text

/-!
# White space

The blanks of this library are the characters with the Unicode property `White_Space`. Trimming and
splitting into words both rest on this one set; a zero-width space or a byte order mark is no blank.
-/

namespace TaggedHeader.Text

/-- Whether a character has the Unicode property `White_Space`. -/
def isBlank (c : Char) : Bool :=
  let n := c.toNat
  (0x09 ≤ n && n ≤ 0x0D) || n == 0x20 || n == 0x85 || n == 0xA0 || n == 0x1680 ||
    (0x2000 ≤ n && n ≤ 0x200A) || n == 0x2028 || n == 0x2029 || n == 0x202F || n == 0x205F ||
    n == 0x3000

/-- Every character that core calls white space is a blank. -/
theorem isBlank_of_isWhitespace {c : Char} (h : c.isWhitespace = true) : isBlank c = true := by
  simp only [Char.isWhitespace, Bool.or_eq_true, decide_eq_true_eq] at h
  rcases h with ((rfl | rfl) | rfl) | rfl <;> rfl

/-- A text without its leading blanks. -/
def trimStart (text : Text) : Text := text.dropWhile isBlank

/-- A text without its trailing blanks. -/
def trimEnd (text : Text) : Text := (text.reverse.dropWhile isBlank).reverse

/-- A text without the blanks at either end. -/
def trim (text : Text) : Text := trimEnd (trimStart text)

/-- The longest runs of characters that are no blanks, in order. -/
def words : Text → List Text
  | [] => []
  | c :: rest =>
    if isBlank c then words rest
    else match rest, words rest with
      | d :: _, word :: more => if isBlank d then [c] :: word :: more else (c :: word) :: more
      | _, more => [c] :: more

end TaggedHeader.Text
