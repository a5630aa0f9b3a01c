import TaggedHeader.Text

/-!
# Texts as bytes

Files hold bytes. A text is written as its UTF-8 form, and bytes are read as a text only if they are the UTF-8
form of one: no stray or missing continuation bytes, no character in more bytes than it needs, no surrogates.
-/

namespace TaggedHeader.Text

/-- The bytes of a text in UTF-8. -/
def bytes (text : Text) : List UInt8 := text.flatMap String.utf8EncodeChar

/-- The payload of a continuation byte. -/
def continuation? (b : UInt8) : Option Nat :=
  if 0x80 ≤ b && b ≤ 0xBF then some (b.toNat - 0x80) else none

/-- The character of a code point that needs at least so many bytes. -/
def charOfCode? (least code : Nat) : Option Char :=
  if least ≤ code ∧ code.isValidChar then some (Char.ofNat code) else none

/-- Reads the character at the start of some bytes. -/
def readChar? : List UInt8 → Option (Char × List UInt8)
  | [] => none
  | a :: rest =>
    if a < 0x80 then some (Char.ofNat a.toNat, rest)
    else if 0xC0 ≤ a && a < 0xE0 then
      match rest with
      | b :: rest => do
        let code := (a.toNat - 0xC0) * 64 + (← continuation? b)
        return (← charOfCode? 0x80 code, rest)
      | _ => none
    else if 0xE0 ≤ a && a < 0xF0 then
      match rest with
      | b :: c :: rest => do
        let code := ((a.toNat - 0xE0) * 64 + (← continuation? b)) * 64 + (← continuation? c)
        return (← charOfCode? 0x800 code, rest)
      | _ => none
    else if 0xF0 ≤ a && a < 0xF8 then
      match rest with
      | b :: c :: d :: rest => do
        let high := ((a.toNat - 0xF0) * 64 + (← continuation? b)) * 64 + (← continuation? c)
        return (← charOfCode? 0x10000 (high * 64 + (← continuation? d)), rest)
      | _ => none
    else none

/-- The text of some bytes, if they are the UTF-8 form of one. -/
def ofBytes? (bytes : List UInt8) : Option Text :=
  match bytes with
  | [] => some []
  | b :: more =>
    match readChar? (b :: more) with
    | none => none
    | some (c, rest) =>
      if rest.length ≤ more.length then (ofBytes? rest).map (c :: ·) else none
termination_by bytes.length
decreasing_by simp only [List.length_cons]; omega

end TaggedHeader.Text
