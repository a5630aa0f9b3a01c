import TaggedHeader.Text

/-!
# Coloured and quoted output

A terminal shows text in colours between two escape sequences, one that sets the colour and one that takes it back.
Programs read the result of a check as a JSON object on one line.
-/

namespace TaggedHeader.CommandLine

/-- How a part of the output stands out. -/
inductive Style where
  | red
  | green
  | yellow
  | bold
deriving DecidableEq, Repr

/-- The numbers that set a style and take it back. -/
def Style.codes : Style → String × String
  | .red => ("31", "39")
  | .green => ("32", "39")
  | .yellow => ("33", "39")
  | .bold => ("1", "0")

/-- A text in a style, if output is coloured. -/
def paint (coloured : Bool) (style : Style) (text : String) : String :=
  if coloured then
    "\x1b[" ++ style.codes.1 ++ "m" ++ text ++ "\x1b[" ++ style.codes.2 ++ "m"
  else text

/-- A digit of base sixteen. -/
def hexDigit (n : Nat) : Char := (Nat.toDigits 16 n).headD '0'

/-- A character inside a JSON string: quotes, backslashes and control characters are escaped, the usual ones by
a letter. -/
def escapeChar (c : Char) : List Char :=
  match c with
  | '"' => ['\\', '"']
  | '\\' => ['\\', '\\']
  | '\n' => ['\\', 'n']
  | '\r' => ['\\', 'r']
  | '\t' => ['\\', 't']
  | '\x08' => ['\\', 'b']
  | '\x0c' => ['\\', 'f']
  | c =>
    if c.toNat < 0x20 then ['\\', 'u', '0', '0', hexDigit (c.toNat / 16), hexDigit (c.toNat % 16)]
    else [c]

/-- A text as a JSON string. -/
def quote (text : Text) : String := "\"" ++ String.ofList (text.flatMap escapeChar) ++ "\""

/-- A truth value in JSON. -/
def quoteFlag (flag : Bool) : String := if flag then "true" else "false"

/-- A JSON object with its members written already. -/
def object (members : List (String × String)) : String :=
  let written := members.map fun (name, value) => quote name.toList ++ ":" ++ value
  "\x7b" ++ String.intercalate "," written ++ "\x7d"

/-- A JSON array with its items written already. -/
def array (items : List String) : String := "[" ++ String.intercalate "," items ++ "]"

end TaggedHeader.CommandLine
