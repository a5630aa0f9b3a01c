import TaggedHeader.Glob

/-!
# Reading globs

A glob is read from left to right. Braces open groups of alternatives, which nest; the groups that are still
open are kept on a stack. A bracket that is never closed is an error, or, in lenient patterns, an ordinary
character, as is every bracket behind it.
-/

namespace TaggedHeader.Glob

/-- Why a text is no glob. -/
inductive SyntaxError where
  /-- A class of characters is not closed. -/
  | unclosedClass
  /-- A range of characters ends before it starts. -/
  | invalidRange (low high : Char)
  /-- A brace closes a group that was not opened. -/
  | unopenedGroup
  /-- A group of alternatives is not closed. -/
  | unclosedGroup
  /-- A backslash stands at the end. -/
  | danglingEscape
deriving DecidableEq, Repr

/-- The words that explain a syntax error. -/
def SyntaxError.message : SyntaxError → String
  | .unclosedClass => "unclosed character class; missing ']'"
  | .invalidRange low high => "invalid range; '" ++ low.toString ++ "' > '" ++ high.toString ++ "'"
  | .unopenedGroup =>
    "unopened alternate group; missing '\x7b' (maybe escape '\x7d' with '[\x7d]'?)"
  | .unclosedGroup =>
    "unclosed alternate group; missing '\x7d' (maybe escape '\x7b' with '[\x7b]'?)"
  | .danglingEscape => "dangling '\\'"

/-- The text that explains an error in a glob. -/
def SyntaxError.describe (error : SyntaxError) (glob : Text) : String :=
  "error parsing glob '" ++ String.ofList glob ++ "': " ++ error.message

/-- Reads the members of a class up to its closing bracket, and counts the characters they take. The ranges
read so far are kept with the last one in front; `isFirst` holds before the first member and `inRange` right
behind a hyphen that may join two characters. The answer is none when the class is not closed. -/
def readClass (ranges : List (Char × Char)) (isFirst inRange : Bool) (count : Nat) :
    Text → Except SyntaxError (Option (List (Char × Char) × Nat))
  | [] => .ok none
  | c :: rest =>
    if c = ']' && !isFirst then
      .ok (some ((if inRange then ('-', '-') :: ranges else ranges).reverse, count + 1))
    else if c = '-' && !isFirst && !inRange then
      readClass ranges false true (count + 1) rest
    else if inRange then
      match ranges with
      | (low, _) :: others =>
        if c < low then .error (.invalidRange low c)
        else readClass ((low, c) :: others) false false (count + 1) rest
      | [] => readClass [(c, c)] false false (count + 1) rest
    else readClass ((c, c) :: ranges) false false (count + 1) rest

/-- What has been read of a glob. -/
structure Reader where
  /-- The character before the one to read. -/
  previous : Option Char
  /-- The tokens of the current sequence, the last one in front. -/
  tokens : List Token
  /-- For every open group, the innermost first, the tokens before it and its finished branches. -/
  groups : List (List Token × List (List Token))
  /-- Whether brackets are ordinary characters from here on. -/
  bracketsPlain : Bool

namespace Reader

/-- Reads a token that ends in the given character. -/
def push (reader : Reader) (token : Token) (last : Char) : Reader :=
  { reader with tokens := token :: reader.tokens, previous := some last }

/-- Whether two stars, with something before them, can stand for directories: they follow a slash, or the
sign that starts a branch. -/
def starsStartName (reader : Reader) : Bool :=
  reader.previous = some '/' ||
    (!reader.groups.isEmpty && (reader.previous = some ',' || reader.previous = some '\x7b'))

/-- Two stars that stand for directories take the place of the slash before them. -/
def mergeDirectories (reader : Reader) (token : Token) (last : Char) : Reader :=
  let merged := match reader.tokens with
    | .leadingDirectories :: others => .leadingDirectories :: others
    | .trailingContent :: others => .trailingContent :: others
    | _ :: others => token :: others
    | [] => [token]
  { reader with tokens := merged, previous := some last }

/-- Reads two stars, given what follows; tells whether a slash behind them is taken along. -/
def doubleStar (reader : Reader) (rest : Text) : Reader × Bool :=
  let plain := (reader.push .anyRun '*').push .anyRun '*'
  if reader.tokens.isEmpty then
    match rest with
    | '/' :: _ => (reader.push .leadingDirectories '/', true)
    | [] => (reader.push .leadingDirectories '*', false)
    | _ => (plain, false)
  else if reader.starsStartName then
    match rest with
    | '/' :: _ => (reader.mergeDirectories .innerDirectories '/', true)
    | [] => (reader.mergeDirectories .trailingContent '*', false)
    | c :: _ =>
      if !reader.groups.isEmpty && (c = ',' || c = '\x7d') then
        (reader.mergeDirectories .trailingContent '*', false)
      else (plain, false)
  else (plain, false)

end Reader

/-- Reads the rest of a glob. -/
def readTokens (lenient : Bool) (reader : Reader) : Text → Except SyntaxError (List Token)
  | [] => if reader.groups.isEmpty then .ok reader.tokens.reverse else .error .unclosedGroup
  | '?' :: rest => readTokens lenient (reader.push .anyByte '?') rest
  | '*' :: '*' :: rest =>
    let (next, takesSlash) := reader.doubleStar rest
    readTokens lenient next (rest.drop (if takesSlash then 1 else 0))
  | '*' :: rest => readTokens lenient (reader.push .anyRun '*') rest
  | '\x7b' :: rest =>
    readTokens lenient { reader with
      tokens := [], groups := (reader.tokens, []) :: reader.groups, previous := some '\x7b' } rest
  | '\x7d' :: rest =>
    match reader.groups with
    | [] => .error .unopenedGroup
    | (outer, branches) :: groups =>
      let group := .alternatives (branches ++ [reader.tokens.reverse])
      readTokens lenient { reader with
        tokens := group :: outer, groups, previous := some '\x7d' } rest
  | ',' :: rest =>
    match reader.groups with
    | [] => readTokens lenient (reader.push (.literal ',') ',') rest
    | (outer, branches) :: groups =>
      readTokens lenient { reader with
        tokens := [], groups := (outer, branches ++ [reader.tokens.reverse]) :: groups
        previous := some ',' } rest
  | '\\' :: [] => .error .danglingEscape
  | '\\' :: c :: rest => readTokens lenient (reader.push (.literal c) c) rest
  | c :: rest =>
    if c = '[' && !reader.bracketsPlain then
      let negated := rest.head? = some '!' || rest.head? = some '^'
      let offset := if negated then 1 else 0
      match readClass [] true false 0 (rest.drop offset) with
      | .error error => .error error
      | .ok (some (ranges, count)) =>
        readTokens lenient (reader.push (.charClass negated ranges) ']') (rest.drop (offset + count))
      | .ok none =>
        if lenient then
          readTokens lenient { reader.push (.literal '[') '[' with bracketsPlain := true } rest
        else .error .unclosedClass
    else readTokens lenient (reader.push (.literal c) c) rest
termination_by text => text.length
decreasing_by all_goals simp only [List.length_cons, List.length_drop]; omega

end Glob

/-- Reads a glob. In a separated one wildcards stay within one name, and a lenient one may hold a bracket that
is never closed. -/
def Glob.parse (separated lenient : Bool) (text : Text) : Except Glob.SyntaxError Glob := do
  let tokens ← Glob.readTokens lenient ⟨none, [], [], false⟩ text
  return ⟨tokens, separated⟩

end TaggedHeader
