import TaggedHeader.Toml.Scalar

/-!
# Quoted text

Text stands in double quotes, where a backslash starts an escape, or in single quotes, where it does not. Three
quotes delimit text of several lines; the newline right behind them does not count, and up to two quotes may
stand right before the closing three.
-/

namespace TaggedHeader.Toml

open Text

/-- Whether a character may not stand in a document as it is. -/
def isControl (c : Char) : Bool := (c.toNat < 0x20 && c != '\t') || c.toNat == 0x7F

/-- What follows a line end at the start of a text. -/
def afterNewline? : Text → Option Text
  | '\n' :: rest => some rest
  | '\r' :: '\n' :: rest => some rest
  | _ => none

/-- Reads the code of a character in so many digits of base sixteen. -/
def readCode (count : Nat) (text : Text) : Option (Char × Text) :=
  let digits := text.take count
  let code := numberOf 16 digits
  if digits.length = count ∧ digits.all isHexDigit ∧ code.isValidChar then
    some (Char.ofNat code, text.drop count)
  else none

/-- Reads an escape behind its backslash. -/
def readEscape : Text → Option (Char × Text)
  | 'b' :: rest => some ('\x08', rest)
  | 't' :: rest => some ('\t', rest)
  | 'n' :: rest => some ('\n', rest)
  | 'f' :: rest => some ('\x0c', rest)
  | 'r' :: rest => some ('\r', rest)
  | 'e' :: rest => some ('\x1b', rest)
  | '"' :: rest => some ('"', rest)
  | '\\' :: rest => some ('\\', rest)
  | 'x' :: rest => readCode 2 rest
  | 'u' :: rest => readCode 4 rest
  | 'U' :: rest => readCode 8 rest
  | _ => none

/-- Reads text in double quotes on one line, behind the opening quote. -/
def readBasic (text : Text) : Option (Text × Text) :=
  match text with
  | [] => none
  | '"' :: rest => some ([], rest)
  | '\\' :: rest =>
    match readEscape rest with
    | none => none
    | some (c, after) =>
      if after.length ≤ rest.length then (readBasic after).map fun (body, rest) => (c :: body, rest)
      else none
  | c :: rest =>
    if isControl c then none else (readBasic rest).map fun (body, rest) => (c :: body, rest)
termination_by text.length
decreasing_by all_goals simp only [List.length_cons]; omega

/-- Reads text in single quotes on one line, behind the opening quote. -/
def readLiteral : Text → Option (Text × Text)
  | [] => none
  | '\'' :: rest => some ([], rest)
  | c :: rest =>
    if isControl c then none else (readLiteral rest).map fun (body, rest) => (c :: body, rest)

/-- Passes over blanks and line ends. -/
def skipBreaks (text : Text) : Text :=
  match text with
  | ' ' :: rest => skipBreaks rest
  | '\t' :: rest => skipBreaks rest
  | '\n' :: rest => skipBreaks rest
  | '\r' :: '\n' :: rest => skipBreaks rest
  | _ => text

/-- What follows a backslash that only continues a line: blanks, a line end, and all blanks and line ends
behind it. -/
def afterContinuation? (text : Text) : Option Text :=
  (afterNewline? (text.dropWhile fun c => c == ' ' || c == '\t')).map skipBreaks

/-- Reads text of several lines up to three closing quotes, behind the opening ones. -/
def readLines (quote : Char) (text : Text) : Option (Text × Text) :=
  match text with
  | [] => none
  | c :: rest =>
    let continue? (kept : Text) (after : Text) : Option (Text × Text) :=
      if after.length ≤ rest.length then
        (readLines quote after).map fun (body, rest) => (kept ++ body, rest)
      else none
    if c = quote then
      let run := text.takeWhile (· == quote)
      if run.length < 3 then continue? run (text.drop run.length)
      else if run.length < 6 then some (run.drop 3, text.drop run.length)
      else none
    else if c = '\\' && quote = '"' then
      match readEscape rest with
      | some (escaped, after) => continue? [escaped] after
      | none =>
        match afterContinuation? rest with
        | some after => continue? [] after
        | none => none
    else match afterNewline? text with
      | some after => continue? (text.take (text.length - after.length)) after
      | none => if isControl c then none else continue? [c] rest
termination_by text.length
decreasing_by simp only [List.length_cons]; omega

/-- Text of several lines without the line end right behind the opening quotes. -/
def withoutFirstBreak (text : Text) : Text := (afterNewline? text).getD text

/-- Reads quoted text of any kind. -/
def readQuoted : Text → Option (Text × Text)
  | '"' :: '"' :: '"' :: rest => readLines '"' (withoutFirstBreak rest)
  | '\'' :: '\'' :: '\'' :: rest => readLines '\'' (withoutFirstBreak rest)
  | '"' :: rest => readBasic rest
  | '\'' :: rest => readLiteral rest
  | _ => none

end TaggedHeader.Toml
