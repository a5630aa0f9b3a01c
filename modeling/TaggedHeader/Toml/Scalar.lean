import TaggedHeader.Toml

/-!
# Numbers, truth values and dates

What is written without quotes and brackets is one word. These functions read a whole word as an integer, a
float, a truth value or a date, and refuse every other word.
-/

namespace TaggedHeader.Toml

open Text

/-- The digits of a group without the underscores that may stand between two digits. -/
def ungroup (isDigit : Char → Bool) : Text → Option Text
  | [] => none
  | [d] => if isDigit d then some [d] else none
  | d :: '_' :: rest => if isDigit d then (ungroup isDigit rest).map (d :: ·) else none
  | d :: rest => if isDigit d then (ungroup isDigit rest).map (d :: ·) else none

/-- The value of a digit of a base up to sixteen. -/
def digitValue (c : Char) : Nat :=
  if c.isDigit then c.toNat - '0'.toNat
  else if c.isUpper then c.toNat - 'A'.toNat + 10
  else c.toNat - 'a'.toNat + 10

/-- The number that digits write in a base. -/
def numberOf (base : Nat) (digits : Text) : Nat :=
  digits.foldl (fun value digit => value * base + digitValue digit) 0

/-- The digits of a decimal number, which does not start with a zero unless it is one. -/
def decimalDigits? (text : Text) : Option Text :=
  match ungroup Char.isDigit text with
  | some ('0' :: _ :: _) => none
  | digits => digits

/-- Takes a sign off a number, and tells whether it is negative. -/
def splitSign : Text → Bool × Text
  | '-' :: rest => (true, rest)
  | '+' :: rest => (false, rest)
  | text => (false, text)

/-- Whether a character is a digit of base eight. -/
def isOctalDigit (c : Char) : Bool := '0' ≤ c && c ≤ '7'

/-- Whether a character is a digit of base sixteen. -/
def isHexDigit (c : Char) : Bool :=
  c.isDigit || ('a' ≤ c && c ≤ 'f') || ('A' ≤ c && c ≤ 'F')

/-- The integers that are read: those of 128 bits, signed or unsigned. -/
def isRepresentable (value : Int) : Bool := -Int.pow 2 127 ≤ value && value < Int.pow 2 128

/-- Reads an integer, in base ten with an optional sign, or in another base behind its mark. -/
def integer? (text : Text) : Option Int :=
  let value : Option Int := match text with
    | '0' :: 'x' :: digits => (ungroup isHexDigit digits).map fun ds => numberOf 16 ds
    | '0' :: 'o' :: digits => (ungroup isOctalDigit digits).map fun ds => numberOf 8 ds
    | '0' :: 'b' :: digits =>
      (ungroup (fun c => c == '0' || c == '1') digits).map fun ds => numberOf 2 ds
    | _ =>
      let (negative, body) := splitSign text
      (decimalDigits? body).map fun ds => if negative then -numberOf 10 ds else numberOf 10 ds
  value.filter isRepresentable

/-- Whether the decimal number `digits · 10 ^ exponent` rounds to a finite double, that is, stays below the
middle between the greatest double and the next power of two. -/
def isFiniteDouble (digits : Text) (exponent : Int) : Bool :=
  let significant := digits.dropWhile (· == '0')
  let magnitude : Int := significant.length + exponent
  if significant = [] || magnitude < 300 then true
  else if 310 < magnitude then false
  else
    let limit := Nat.pow 2 1024 - Nat.pow 2 970
    let value := numberOf 10 significant
    if 0 ≤ exponent then value * Nat.pow 10 exponent.toNat < limit
    else value < limit * Nat.pow 10 (-exponent).toNat

/-- Reads the part of a float behind its point or before its exponent. -/
def exponent? (text : Text) : Option Int :=
  let (negative, body) := splitSign text
  (ungroup Char.isDigit body).map fun ds => if negative then -numberOf 10 ds else numberOf 10 ds

/-- Whether a text without sign is a float: a decimal number with a fraction, an exponent or both. -/
def isUnsignedFloat (text : Text) : Bool :=
  let isWhole (c : Char) : Bool := c.isDigit || c == '_'
  match decimalDigits? (text.takeWhile isWhole) with
  | none => false
  | some whole =>
    let (fraction, rest) : Option Text × Text := match text.dropWhile isWhole with
      | '.' :: rest => (ungroup Char.isDigit (rest.takeWhile isWhole), rest.dropWhile isWhole)
      | rest => (some [], rest)
    match fraction, rest with
    | none, _ => false
    | some digits, [] => digits ≠ [] && isFiniteDouble (whole ++ digits) (-digits.length)
    | some digits, mark :: rest =>
      (mark == 'e' || mark == 'E') &&
        match exponent? rest with
        | none => false
        | some exponent => isFiniteDouble (whole ++ digits) (exponent - digits.length)

/-- Whether a word is a float. -/
def isFloat (text : Text) : Bool :=
  let body := (splitSign text).2
  body = ['i', 'n', 'f'] || body = ['n', 'a', 'n'] || isUnsignedFloat body

/-- Reads a number of exactly so many decimal digits at the start of a text. -/
def fixedNumber? (count : Nat) (text : Text) : Option (Nat × Text) :=
  let digits := text.take count
  if digits.length = count ∧ digits.all Char.isDigit then some (numberOf 10 digits, text.drop count)
  else none

/-- Reads a number of exactly two digits that is at most `limit`. -/
def pair? (limit : Nat) (text : Text) : Option (Nat × Text) :=
  (fixedNumber? 2 text).filter (·.1 ≤ limit)

/-- How many days a month has. -/
def daysIn (year month : Nat) : Nat :=
  if month = 2 then
    if year % 4 = 0 ∧ (year % 100 ≠ 0 ∨ year % 400 = 0) then 29 else 28
  else if month = 4 ∨ month = 6 ∨ month = 9 ∨ month = 11 then 30
  else 31

/-- What follows a date at the start of a text. -/
def afterDate? (text : Text) : Option Text := do
  let (year, rest) ← fixedNumber? 4 text
  let (month, rest) ← pair? 12 (← dropWord? ['-'] rest)
  let (day, rest) ← pair? (daysIn year month) (← dropWord? ['-'] rest)
  if month = 0 ∨ day = 0 then none else some rest

/-- What follows a time of day at the start of a text. -/
def afterTime? (text : Text) : Option Text := do
  let (_, rest) ← pair? 23 text
  let (_, rest) ← pair? 59 (← dropWord? [':'] rest)
  match rest with
  | ':' :: rest =>
    let (_, rest) ← pair? 60 rest
    match rest with
    | '.' :: rest =>
      if rest.head?.any Char.isDigit then some (rest.dropWhile Char.isDigit) else none
    | rest => some rest
  | rest => some rest

/-- Whether a text is empty or the distance of a local time from universal time. -/
def isOffset (text : Text) : Bool :=
  match text with
  | [] => true
  | ['Z'] | ['z'] => true
  | sign :: rest =>
    (sign == '+' || sign == '-') &&
      match pair? 23 rest with
      | some (_, ':' :: minutes) => (pair? 59 minutes).any (·.2 = [])
      | _ => false

/-- Whether a word is a date, a time of day, or both. -/
def isDateTime (text : Text) : Bool :=
  match afterDate? text with
  | some [] => true
  | some (mark :: rest) =>
    (mark == 'T' || mark == 't' || mark == ' ') && (afterTime? rest).any isOffset
  | none => afterTime? text = some []

/-- Reads a word. -/
def scalar? (text : Text) : Option Value :=
  if text = ['t', 'r', 'u', 'e'] then some (.boolean true)
  else if text = ['f', 'a', 'l', 's', 'e'] then some (.boolean false)
  else match integer? text with
    | some value => some (.integer value)
    | none =>
      if isFloat text then some (.float text)
      else if isDateTime text then some (.dateTime text)
      else none

end TaggedHeader.Toml
