import TaggedHeader.Toml.Quoted

/-!
# Reading TOML documents

A document is a list of statements, one a line: a header opens a table, and every other statement gives a key of
the open table a value. Each loop reads on only while its text gets shorter, and values nest up to a fixed depth.
-/

namespace TaggedHeader.Toml

open Text

/-- Whether a character is a blank within a line. -/
def isSpace (c : Char) : Bool := c == ' ' || c == '\t'

/-- Passes over the blanks of a line. -/
def skipSpaces (text : Text) : Text := text.dropWhile isSpace

/-- Passes over a comment up to the line end, behind its sign. -/
def skipComment : Text → Option Text
  | [] => some []
  | '\n' :: rest => some ('\n' :: rest)
  | '\r' :: '\n' :: rest => some ('\r' :: '\n' :: rest)
  | c :: rest => if isControl c then none else skipComment rest

/-- Passes over blanks, comments and line ends. -/
def skipFiller (text : Text) : Option Text :=
  let start := skipBreaks text
  match start with
  | '#' :: rest =>
    match skipComment rest with
    | none => none
    | some after => if after.length < text.length then skipFiller after else none
  | _ => some start
termination_by text.length

/-- Passes over what may end a line behind a statement. -/
def endLine (text : Text) : Option Text := do
  let rest ← match skipSpaces text with
    | '#' :: rest => skipComment rest
    | rest => some rest
  if rest = [] then some [] else afterNewline? rest

/-- Whether a character may stand in a key without quotes. -/
def isBareKeyChar (c : Char) : Bool := c.isAlphanum || c == '_' || c == '-'

/-- Reads a key without dots. -/
def readSimpleKey (text : Text) : Option (Text × Text) :=
  match text with
  | '"' :: rest => readBasic rest
  | '\'' :: rest => readLiteral rest
  | _ =>
    match text.takeWhile isBareKeyChar with
    | [] => none
    | key => some (key, text.dropWhile isBareKeyChar)

/-- Reads a key, as its parts between dots. -/
def readKey (text : Text) : Option (List Text × Text) :=
  match readSimpleKey text with
  | none => none
  | some (part, rest) =>
    match skipSpaces rest with
    | '.' :: more =>
      let next := skipSpaces more
      if next.length < text.length then
        (readKey next).map fun (parts, rest) => (part :: parts, rest)
      else none
    | rest => some ([part], rest)
termination_by text.length

/-- Whether a character may stand in a word. -/
def isWordPart (c : Char) : Bool := c.isAlphanum || c == '_' || c == '+' || c == '-' || c == '.' || c == ':'

/-- Reads a word; a date and a time of day with one blank between them are one word. -/
def readScalar (text : Text) : Option (Value × Text) :=
  let word := text.takeWhile isWordPart
  let rest := text.dropWhile isWordPart
  match afterDate? word, rest with
  | some [], ' ' :: more =>
    if more.head?.any Char.isDigit then
      (scalar? (word ++ ' ' :: more.takeWhile isWordPart)).map (·, more.dropWhile isWordPart)
    else (scalar? word).map (·, rest)
  | _, _ => (scalar? word).map (·, rest)

/-- How deeply values may nest. -/
def maxDepth : Nat := 80

/-- Reads the items of an array behind its bracket or behind a comma. -/
def readItems (readItem : Text → Option (Value × Text)) (text : Text) :
    Option (List Value × Text) :=
  match skipFiller text with
  | none => none
  | some (']' :: rest) => some ([], rest)
  | some start =>
    match readItem start with
    | none => none
    | some (item, rest) =>
      match skipFiller rest with
      | some (']' :: rest) => some ([item], rest)
      | some (',' :: rest) =>
        if rest.length < text.length then
          (readItems readItem rest).map fun (items, rest) => (item :: items, rest)
        else none
      | _ => none
termination_by text.length

/-- Reads a key, the sign behind it and a value. -/
def readAssignment (readItem : Text → Option (Value × Text)) (text : Text) :
    Option ((List Text × Value) × Text) := do
  let (path, rest) ← readKey text
  let rest ← dropWord? ['='] (skipSpaces rest)
  let (value, rest) ← readItem (skipSpaces rest)
  return ((path, value), rest)

/-- Reads the entries of a table in braces behind its brace or behind a comma. -/
def readEntries (readItem : Text → Option (Value × Text)) (entries : Entries) (text : Text) :
    Option (Entries × Text) :=
  match skipFiller text with
  | none => none
  | some ('\x7d' :: rest) => some (entries, rest)
  | some start =>
    match readAssignment readItem start with
    | none => none
    | some ((path, value), rest) =>
      match entries.assign path value, skipFiller rest with
      | some extended, some ('\x7d' :: rest) => some (extended, rest)
      | some extended, some (',' :: rest) =>
        if rest.length < text.length then readEntries readItem extended rest else none
      | _, _ => none
termination_by text.length

/-- Reads a value that nests at most so deeply. -/
def readValue : (depth : Nat) → Text → Option (Value × Text)
  | 0, _ => none
  | depth + 1, text =>
    match text with
    | '[' :: rest => (readItems (readValue depth) rest).map fun (items, rest) =>
        (.array false items, rest)
    | '\x7b' :: rest => (readEntries (readValue depth) [] rest).map fun (entries, rest) =>
        (.table .inline entries, rest)
    | c :: _ =>
      if c = '"' || c = '\'' then (readQuoted text).map fun (body, rest) => (.string body, rest)
      else readScalar text
    | [] => none

/-- A line of a document. -/
inductive Statement where
  /-- The header of a table. -/
  | openTable (path : List Text)
  /-- The header of an item of an array of tables. -/
  | openItem (path : List Text)
  /-- A key of the open table gets a value. -/
  | assign (path : List Text) (value : Value)
deriving Repr

/-- Reads a statement up to the end of its line. -/
def readStatement (text : Text) : Option (Statement × Text) :=
  match text with
  | '[' :: '[' :: rest => do
    let (path, rest) ← readKey (skipSpaces rest)
    let rest ← dropWord? [']', ']'] (skipSpaces rest)
    return (.openItem path, ← endLine rest)
  | '[' :: rest => do
    let (path, rest) ← readKey (skipSpaces rest)
    let rest ← dropWord? [']'] (skipSpaces rest)
    return (.openTable path, ← endLine rest)
  | _ => do
    let ((path, value), rest) ← readAssignment (readValue maxDepth) text
    return (.assign path value, ← endLine rest)

/-- Reads the statements of a document. -/
def readStatements (text : Text) : Option (List Statement) :=
  match skipFiller text with
  | none => none
  | some [] => some []
  | some start =>
    match readStatement start with
    | none => none
    | some (statement, rest) =>
      if rest.length < text.length then (readStatements rest).map (statement :: ·) else none
termination_by text.length

/-- A document in the making: its entries, and the path of the open table. -/
abbrev OpenDocument := Entries × List Text

/-- Carries out a statement. -/
def Statement.perform : Statement → OpenDocument → Option OpenDocument
  | .openTable path, (entries, _) => do
    let key ← path.getLast?
    return (← Entries.changeAt (Entries.openTable key) path.dropLast entries, path)
  | .openItem path, (entries, _) => do
    let key ← path.getLast?
    return (← Entries.changeAt (Entries.openItem key) path.dropLast entries, path)
  | .assign path value, (entries, openPath) => do
    return (← Entries.changeAt (Entries.assign path value) openPath entries, openPath)

/-- Reads a document, which may begin with a byte order mark. -/
def parse? (text : Text) : Option Entries := do
  let body := (dropWord? ['\uFEFF'] text).getD text
  let statements ← readStatements body
  let (entries, _) ← statements.foldlM (fun document statement => statement.perform document) ([], [])
  return entries

end TaggedHeader.Toml
