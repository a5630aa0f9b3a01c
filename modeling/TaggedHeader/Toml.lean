import TaggedHeader.Text

/-!
# TOML values

A document is a table, and a table remembers how it came about, since that decides what may still be added to
it: a table in braces is complete, one made by dotted keys grows by dotted keys alone, and one that has its own
header, or lies on the way to one, grows by headers.
-/

namespace TaggedHeader.Toml

/-- How a table came about. -/
inductive TableForm where
  /-- It has a header of its own, or is the whole document. -/
  | header
  /-- It lies on the way to a table with a header. -/
  | passage
  /-- It lies on the way of a dotted key. -/
  | dotted
  /-- It is written in braces. -/
  | inline
deriving DecidableEq, Repr

/-- A TOML value. Floats and dates are kept as they are written. -/
inductive Value where
  | string (text : Text)
  | integer (value : Int)
  | float (text : Text)
  | boolean (value : Bool)
  | dateTime (text : Text)
  /-- A list of values; an array of tables is one whose items have headers. -/
  | array (hasHeaders : Bool) (items : List Value)
  | table (form : TableForm) (entries : List (Text × Value))
deriving Repr

/-- The entries of a table, in the order they were written. -/
abbrev Entries := List (Text × Value)

namespace Entries

/-- The value of a key. -/
def find? (key : Text) (entries : Entries) : Option Value :=
  (List.find? (fun entry => entry.1 == key) entries).map Prod.snd

/-- Gives a key a value, in its old place if it has one. -/
def set (key : Text) (value : Value) : Entries → Entries
  | [] => [(key, value)]
  | entry :: entries =>
    if entry.1 == key then (key, value) :: entries else entry :: set key value entries

/-- Adds a key, which must be new. -/
def insertNew (key : Text) (value : Value) (entries : Entries) : Option Entries :=
  match entries.find? key with
  | none => some (entries ++ [(key, value)])
  | some _ => none

/-- Changes the entries of the last item of an array of tables. -/
def changeLast (change : Entries → Option Entries) : List Value → Option (List Value)
  | [] => none
  | [.table form entries] => (change entries).map fun changed => [.table form changed]
  | item :: items => (changeLast change items).map (item :: ·)

/-- Changes the table that a header's path leads to, making the tables on the way that do not exist. -/
def changeAt (change : Entries → Option Entries) : (path : List Text) → Entries → Option Entries
  | [], entries => change entries
  | key :: path, entries =>
    match entries.find? key with
    | none => (changeAt change path []).map fun made => entries ++ [(key, .table .passage made)]
    | some (.table .inline _) => none
    | some (.table form inner) =>
      (changeAt change path inner).map fun changed => entries.set key (.table form changed)
    | some (.array true items) =>
      (changeLast (changeAt change path) items).map fun changed =>
        entries.set key (.array true changed)
    | some _ => none

/-- Opens the table of a header: a new table, or one that so far was only on the way to others. -/
def openTable (key : Text) (entries : Entries) : Option Entries :=
  match entries.find? key with
  | none => some (entries ++ [(key, .table .header [])])
  | some (.table .passage inner) => some (entries.set key (.table .header inner))
  | some _ => none

/-- Opens a new item of an array of tables. -/
def openItem (key : Text) (entries : Entries) : Option Entries :=
  match entries.find? key with
  | none => some (entries ++ [(key, .array true [.table .header []])])
  | some (.array true items) => some (entries.set key (.array true (items ++ [.table .header []])))
  | some _ => none

/-- Gives a dotted key a value. The table that takes it must itself have been made by dotted keys. -/
def assignDotted (key : Text) (value : Value) : (path : List Text) → Entries → Option Entries
  | [], entries => entries.insertNew key value
  | step :: path, entries =>
    match entries.find? step with
    | none => (assignDotted key value path []).map fun made => entries ++ [(step, .table .dotted made)]
    | some (.table .dotted inner) =>
      (assignDotted key value path inner).map fun changed =>
        entries.set step (.table .dotted changed)
    | some (.table .passage inner) =>
      if path = [] then none
      else (assignDotted key value path inner).map fun changed =>
        entries.set step (.table .passage changed)
    | some (.array true items) =>
      if path = [] then none
      else (changeLast (assignDotted key value path) items).map fun changed =>
        entries.set step (.array true changed)
    | some _ => none

/-- Gives a key, which may have dots, a value. -/
def assign (path : List Text) (value : Value) (entries : Entries) : Option Entries :=
  match path.getLast? with
  | none => none
  | some key => assignDotted key value path.dropLast entries

end Entries
end TaggedHeader.Toml
